/-
Module: NsuLabs.CrackHash.Manager
Purpose: The manager of `RIS/CrackHash`: the repository operations (`mongo.go`), `HandleFoundWords` and
  `GetStatus` (`crack_service.go`), `DistributeTask` (`task_distributor.go`), `CrackHash`
  (`handler/manager.go`) and `processPendingParts` (`outbox_relay.go`), each cut at its database operations
  and its calls of `Publish`, and `handleMessage` of both consumers, with the `Publish` of the worker.
  Identifiers are numbers, messages are values, and log lines are left out. Then the handling of the
  `FoundWords` messages of one request, in any interleaving.
Trusted boundary: the definitions
Main exports: World, foundWords_counted_once
-/
import NsuLabs.Lib.Runs

namespace NsuLabs.CrackHash

abbrev Uuid := BitVec 128

/-! ### The documents -/

inductive Status where
  | inProgress
  | ready
  | error
deriving DecidableEq

def Status.text : Status → String
  | inProgress => "IN_PROGRESS"
  | ready => "READY"
  | error => "ERROR"

/-- `model.CrackRequest`. -/
structure CrackRequest where
  id : Uuid
  hash : String
  maxLength : Int
  alphabet : String
  status : Status
  results : List String
  partCount : Nat
  completedParts : Nat
  completedPartNumbers : List Int32
  pendingParts : List Int32
deriving DecidableEq

/-- `mq.CrackTaskMessage`. -/
structure CrackTaskMessage where
  requestId : Uuid
  hash : String
  maxLength : Int32
  alphabet : String
  partNumber : Int32
  partCount : Int32
deriving DecidableEq

/-- `mq.FoundWordsMessage`. -/
structure FoundWordsMessage where
  requestId : Uuid
  partNumber : Int32
  answers : List String
deriving DecidableEq

/-- The document that `CreateRequest` inserts. -/
def createRequest (id : Uuid) (hash : String) (maxLength : Int) (partCount : Nat) (alphabet : String) :
    CrackRequest where
  id := id
  hash := hash
  maxLength := maxLength
  alphabet := alphabet
  status := .inProgress
  results := []
  partCount := partCount
  completedParts := 0
  completedPartNumbers := []
  pendingParts := []

/-- The alphabet of `Manager.CrackHash`. -/
def alphabet : String := "abcdefghijklmnopqrstuvwxyz0123456789"

/-- The message for a part, as `DistributeTask` and the outbox relay build it. -/
def taskMessage (req : CrackRequest) (partNumber : Int32) : CrackTaskMessage where
  requestId := req.id
  hash := req.hash
  maxLength := Int32.ofInt req.maxLength
  alphabet := req.alphabet
  partNumber := partNumber
  partCount := Int32.ofNat req.partCount

/-! ### The updates of the repository

Each one changes the document that the filter finds; the filter of `AddResults` also asks for a part that
is not among the completed ones. -/

def addResults (partNumber : Int32) (answers : List String) (req : CrackRequest) : CrackRequest :=
  if partNumber ∈ req.completedPartNumbers then req
  else
    { req with
      results := req.results ++ answers
      completedPartNumbers := req.completedPartNumbers ++ [partNumber]
      completedParts := req.completedParts + 1 }

def markReady (req : CrackRequest) : CrackRequest := { req with status := .ready }

def setPendingParts (pendingParts : List Int32) (req : CrackRequest) : CrackRequest :=
  { req with pendingParts := pendingParts }

/-- `$pull` takes out every occurrence. -/
def removePendingPart (partNumber : Int32) (req : CrackRequest) : CrackRequest :=
  { req with pendingParts := req.pendingParts.filter (· ≠ partNumber) }

/-- The filter of `FindWithPendingParts`. -/
def CrackRequest.hasPendingParts (req : CrackRequest) : Bool :=
  req.pendingParts ≠ [] ∧ req.status = .inProgress

/-! ### HandleFoundWords and GetStatus -/

/-- The database operation that `HandleFoundWords` comes to next. -/
inductive HandlerStage where
  | addResults
  | get
  | markReady
deriving DecidableEq

/-- A call of `HandleFoundWords` in progress. -/
structure Handler where
  message : FoundWordsMessage
  stage : HandlerStage
deriving DecidableEq

/-- The next operation of the call on the document of its request (`none` if there is no such
    document); `ok` says whether the operation succeeds. The call returns where the result has no
    handler. -/
def Handler.step (handler : Handler) (ok : Bool) (doc : Option CrackRequest) :
    Option CrackRequest × Option Handler :=
  match handler.stage with
  | .addResults =>
    if ok then
      (doc.map (addResults handler.message.partNumber handler.message.answers),
        some { handler with stage := .get })
    else (doc, none)
  | .get =>
    match ok, doc with
    | true, some req =>
      if req.completedParts ≥ req.partCount then (doc, some { handler with stage := .markReady })
      else (doc, none)
    | _, _ => (doc, none)
  | .markReady => if ok then (doc.map markReady, none) else (doc, none)

/-- The status and, when the request is ready, the results. -/
def getStatus (doc : Option CrackRequest) : Option (Status × Option (List String)) :=
  doc.map fun req => if req.status ≠ .ready then (req.status, none) else (req.status, some req.results)

/-! ### The world -/

/-- How a call of `Publish` ends, without an error or with one, and whether the message has reached
    the queue. `Publish` takes any confirmation for its own, so a call without an error may have
    lost its message. -/
inductive PublishOutcome where
  | confirmed (delivered : Bool)
  | failed (delivered : Bool)
deriving DecidableEq

def PublishOutcome.delivered : PublishOutcome → Bool
  | confirmed delivered => delivered
  | failed delivered => delivered

/-- A call of `Manager.CrackHash` behind `CreateRequest`: in front of the publication of part
    `next`, or of `SetPendingParts`. -/
inductive Call where
  | distributing (req : CrackRequest) (next : Nat)
  | saving (id : Uuid) (pending : List Int32)
deriving DecidableEq

/-- A pass of `processPendingParts`: in front of the publication of the first pending part of the
    first request that is left, or of the removal of a part that has been published. -/
inductive Relay where
  | idle
  | publishing (requests : List CrackRequest)
  | removing (id : Uuid) (partNumber : Int32) (requests : List CrackRequest)
deriving DecidableEq

/-- The database, the two queues, the workers and the manager. -/
structure World where
  collection : List CrackRequest
  taskQueue : List CrackTaskMessage
  /-- Tasks that are delivered to a worker and not yet acknowledged. -/
  workers : List CrackTaskMessage
  resultsQueue : List FoundWordsMessage
  /-- The result that the manager is handling; it handles one after another. -/
  handler : Option Handler
  calls : List Call
  relay : Relay
  /-- The requests whose call of `CrackHash` has returned 200. -/
  returned : List Uuid
  /-- The results that the manager has acknowledged. -/
  acknowledged : List (Uuid × Int32)
deriving DecidableEq

def World.initial : World where
  collection := []
  taskQueue := []
  workers := []
  resultsQueue := []
  handler := none
  calls := []
  relay := .idle
  returned := []
  acknowledged := []

/-- `FindOne` by the identifier. -/
def World.get (w : World) (id : Uuid) : Option CrackRequest := w.collection.find? fun req => req.id = id

/-- `UpdateOne` by the identifier. -/
def World.update (w : World) (id : Uuid) (f : CrackRequest → CrackRequest) : World :=
  { w with collection := w.collection.map fun req => if req.id = id then f req else req }

def World.enqueueTask (w : World) (message : CrackTaskMessage) (delivered : Bool) : World :=
  if delivered then { w with taskQueue := w.taskQueue ++ [message] } else w

inductive Action where
  /-- `CrackHash` is called, and the insertion of the document ends. -/
  | create (id : Uuid) (hash : String) (maxLength : Int) (ok : Bool)
  /-- Call `i` publishes its next part. -/
  | publish (i : Nat) (outcome : PublishOutcome)
  /-- Call `i` stores its pending parts and returns. -/
  | savePending (i : Nat) (ok : Bool)
  | relayFind (ok : Bool)
  | relayPublish (outcome : PublishOutcome)
  | relayRemove (ok : Bool)
  /-- The broker delivers a task to a worker. -/
  | deliverTask (i : Nat)
  /-- `Publish` returns nil to a worker, which acknowledges the task. The worker's publisher waits
      for no confirmation, so that the result may not have reached its queue. -/
  | finishTask (i : Nat) (answers : List String) (delivered : Bool)
  /-- A task is requeued: the worker refuses it or is lost, before or after the result has reached
      its queue. -/
  | requeueTask (i : Nat) (published : Option (List String))
  /-- The broker delivers a result to the manager. -/
  | deliverResult (i : Nat)
  /-- The next database operation of `HandleFoundWords`. -/
  | handle (ok : Bool)
  /-- The connection is lost while a result is handled, and the broker delivers the result again. -/
  | redeliverResult
deriving DecidableEq

/-- The part numbers `int32(j)` for `first <= j < partCount`. -/
def partsFrom (first partCount : Nat) : List Int32 :=
  (List.range' first (partCount - first)).map Int32.ofNat

/-- The relay has nothing left to do for a request without pending parts. -/
def Relay.next : List CrackRequest → Relay
  | [] => .idle
  | req :: rest => if req.pendingParts = [] then Relay.next rest else .publishing (req :: rest)

/-- What `DistributeTask` goes on with after it has published part `next`. -/
def Call.advance (req : CrackRequest) (next : Nat) : Call :=
  if next < req.partCount then .distributing req next else .saving req.id []

/-- One step of the system with `partCount` parts for every request. -/
def World.step (partCount : Nat) (w : World) : Action → Option World
  | .create id hash maxLength ok =>
    if ok ∧ (w.get id).isNone then
      let req := createRequest id hash maxLength partCount alphabet
      some { w with collection := w.collection ++ [req], calls := w.calls ++ [Call.advance req 0] }
    else some w
  | .publish i outcome =>
    match w.calls[i]? with
    | some (.distributing req next) =>
      let w := w.enqueueTask (taskMessage req (Int32.ofNat next)) outcome.delivered
      match outcome with
      | .confirmed _ => some { w with calls := w.calls.set i (Call.advance req (next + 1)) }
      | .failed _ => some { w with calls := w.calls.set i (.saving req.id (partsFrom next req.partCount)) }
    | _ => none
  | .savePending i ok =>
    match w.calls[i]? with
    | some (.saving id pending) =>
      let w := if ok then w.update id (setPendingParts pending) else w
      some { w with calls := w.calls.eraseIdx i, returned := w.returned ++ [id] }
    | _ => none
  | .relayFind ok =>
    match w.relay with
    | .idle =>
      if ok then some { w with relay := Relay.next (w.collection.filter CrackRequest.hasPendingParts) }
      else some w
    | _ => none
  | .relayPublish outcome =>
    match w.relay with
    | .publishing (req :: requests) =>
      match req.pendingParts with
      | [] => none
      | partNumber :: parts =>
        let w := w.enqueueTask (taskMessage req partNumber) outcome.delivered
        match outcome with
        | .confirmed _ =>
          let req := { req with pendingParts := parts }
          some { w with relay := .removing req.id partNumber (req :: requests) }
        | .failed _ => some { w with relay := Relay.next requests }
    | _ => none
  | .relayRemove ok =>
    match w.relay with
    | .removing id partNumber requests =>
      let w := if ok then w.update id (removePendingPart partNumber) else w
      some { w with relay := Relay.next requests }
    | _ => none
  | .deliverTask i =>
    match w.taskQueue[i]? with
    | some message => some { w with taskQueue := w.taskQueue.eraseIdx i, workers := w.workers ++ [message] }
    | none => none
  | .finishTask i answers delivered =>
    match w.workers[i]? with
    | some message =>
      let w := { w with workers := w.workers.eraseIdx i }
      if delivered then
        some { w with resultsQueue := w.resultsQueue ++ [⟨message.requestId, message.partNumber, answers⟩] }
      else some w
    | none => none
  | .requeueTask i published =>
    match w.workers[i]? with
    | some message =>
      some { w with
        workers := w.workers.eraseIdx i
        taskQueue := w.taskQueue ++ [message]
        resultsQueue := w.resultsQueue ++
          (published.map fun answers => ⟨message.requestId, message.partNumber, answers⟩).toList }
    | none => none
  | .deliverResult i =>
    match w.handler, w.resultsQueue[i]? with
    | none, some message =>
      some { w with
        resultsQueue := w.resultsQueue.eraseIdx i
        handler := some { message := message, stage := .addResults } }
    | _, _ => none
  | .handle ok =>
    match w.handler with
    | some handler =>
      let (doc, next) := handler.step ok (w.get handler.message.requestId)
      let w := w.update handler.message.requestId fun req => doc.getD req
      -- the message is acknowledged whatever has happened
      let acknowledged := match next with
        | none => w.acknowledged ++ [(handler.message.requestId, handler.message.partNumber)]
        | some _ => w.acknowledged
      some { w with handler := next, acknowledged := acknowledged }
    | none => none
  | .redeliverResult =>
    match w.handler with
    | some handler => some { w with resultsQueue := w.resultsQueue ++ [handler.message] }
    | none => none

open Lib List Option

variable {req : CrackRequest} {partCount : Nat} {handler : Handler}

/-! ### Counting parts -/

/-- Every part from 0 to `partCount - 1` is among the completed ones. -/
def AllCompleted (req : CrackRequest) : Prop :=
  ∀ i : Nat, i < req.partCount → ∃ p ∈ req.completedPartNumbers, p.toInt = i

/-- The document counts every completed part once. -/
structure WellCounted (req : CrackRequest) : Prop where
  nodup : req.completedPartNumbers.Nodup
  count : req.completedParts = req.completedPartNumbers.length
  inRange : ∀ p ∈ req.completedPartNumbers, 0 ≤ p.toInt ∧ p.toInt < req.partCount

theorem int32_toInt_injective : Function.Injective Int32.toInt := fun _ _ h => Int32.toInt_inj.mp h

/-- The comparison of `HandleFoundWords` finds out whether all parts are completed. -/
theorem WellCounted.completedParts_ge_iff (h : WellCounted req) :
    req.completedParts ≥ req.partCount ↔ AllCompleted req := by
  have hcard : (req.completedPartNumbers.toFinset.image Int32.toInt).card = req.completedParts := by
    rw [Finset.card_image_of_injective _ int32_toInt_injective, toFinset_card_of_nodup h.nodup, h.count]
  have hsubset : req.completedPartNumbers.toFinset.image Int32.toInt ⊆
      Finset.Ico 0 (req.partCount : Int) := by
    intro i hi
    obtain ⟨p, hp, rfl⟩ := Finset.mem_image.mp hi
    exact Finset.mem_Ico.mpr (h.inRange p (List.mem_toFinset.mp hp))
  have hparts : (Finset.Ico 0 (req.partCount : Int)).card = req.partCount := by
    rw [Int.card_Ico, Int.sub_zero, Int.toNat_natCast]
  constructor
  · intro hge i hi
    have heq := Finset.eq_of_subset_of_card_le hsubset (by rw [hcard, hparts]; exact hge)
    have hmem : (i : Int) ∈ req.completedPartNumbers.toFinset.image Int32.toInt := by
      rw [heq]
      exact Finset.mem_Ico.mpr ⟨Int.natCast_nonneg i, Int.ofNat_lt.mpr hi⟩
    obtain ⟨p, hp, hpi⟩ := Finset.mem_image.mp hmem
    exact ⟨p, List.mem_toFinset.mp hp, hpi⟩
  · intro hall
    rw [ge_iff_le, ← hcard, ← hparts]
    apply Finset.card_le_card
    intro i hi
    obtain ⟨hnonneg, hlt⟩ := Finset.mem_Ico.mp hi
    obtain ⟨p, hp, hpi⟩ := hall i.toNat (by omega)
    exact Finset.mem_image.mpr ⟨p, List.mem_toFinset.mpr hp, by omega⟩

theorem WellCounted.addResults (h : WellCounted req) {partNumber : Int32}
    (hpart : 0 ≤ partNumber.toInt ∧ partNumber.toInt < req.partCount) (answers : List String) :
    WellCounted (addResults partNumber answers req) := by
  rw [CrackHash.addResults]
  split_ifs with hmem
  · exact h
  · refine ⟨?_, ?_, ?_⟩
    · exact nodup_append.mpr ⟨h.nodup, nodup_singleton _, by
        rintro p hp q hq rfl
        exact hmem (mem_singleton.mp hq ▸ hp)⟩
    · rw [length_append, length_singleton, h.count]
    · intro p hp
      rcases mem_append.mp hp with hp | hp
      · exact h.inRange p hp
      · rw [mem_singleton.mp hp]
        exact hpart

theorem mem_completed_addResults (partNumber : Int32) (answers : List String) (req : CrackRequest)
    (p : Int32) : p ∈ (addResults partNumber answers req).completedPartNumbers ↔
      p ∈ req.completedPartNumbers ∨ p = partNumber := by
  rw [addResults]
  split_ifs with hmem
  · constructor
    · exact .inl
    · rintro (hp | rfl)
      · exact hp
      · exact hmem
  · rw [mem_append, mem_singleton]

/-- The updates leave the other fields alone. -/
theorem addResults_fields (partNumber : Int32) (answers : List String) (req : CrackRequest) :
    (addResults partNumber answers req).status = req.status ∧
      (addResults partNumber answers req).partCount = req.partCount ∧
      (addResults partNumber answers req).pendingParts = req.pendingParts ∧
      (addResults partNumber answers req).id = req.id := by
  rw [addResults]
  split_ifs <;> exact ⟨rfl, rfl, rfl, rfl⟩

theorem AllCompleted.addResults (h : AllCompleted req) (partNumber : Int32) (answers : List String) :
    AllCompleted (addResults partNumber answers req) := by
  intro i hi
  rw [(addResults_fields partNumber answers req).2.1] at hi
  obtain ⟨p, hp, hpi⟩ := h i hi
  exact ⟨p, (mem_completed_addResults _ _ _ _).mpr (.inl hp), hpi⟩

/-! ### Interleaved calls of HandleFoundWords -/

/-- The document of a request and the calls that are handling messages for it. `updates` are the
    messages whose `AddResults` has been executed, in this order, and `handled` those whose call has
    returned. -/
structure Handling where
  doc : CrackRequest
  handlers : List Handler
  updates : List FoundWordsMessage
  handled : List FoundWordsMessage

inductive HandlingAction where
  /-- A message is delivered, for the first time or once more. -/
  | start (message : FoundWordsMessage)
  /-- The next database operation of the `i`-th call in progress. -/
  | advance (i : Nat)

def Handling.initial (req : CrackRequest) : Handling where
  doc := req
  handlers := []
  updates := []
  handled := []

/-- All database operations succeed. -/
def Handling.step (s : Handling) : HandlingAction → Option Handling
  | .start message => some
    { s with handlers := s.handlers ++ [{ message := message, stage := .addResults }] }
  | .advance i =>
    match s.handlers[i]? with
    | none => none
    | some handler =>
      let (doc, next) := handler.step true (some s.doc)
      some {
        doc := doc.getD s.doc
        handlers := match next with
          | some handler => s.handlers.set i handler
          | none => s.handlers.eraseIdx i
        updates := if handler.stage = .addResults then s.updates ++ [handler.message] else s.updates
        handled := if next.isNone then s.handled ++ [handler.message] else s.handled }

variable {s s' : Handling} {action : HandlingAction}

/-- The first update for each part, in the order of the updates. -/
def firstPerPart (updates : List FoundWordsMessage) : List FoundWordsMessage :=
  updates.foldl
    (fun firsts message =>
      if message.partNumber ∈ firsts.map FoundWordsMessage.partNumber then firsts
      else firsts ++ [message]) []

theorem firstPerPart_append (updates : List FoundWordsMessage) (message : FoundWordsMessage) :
    firstPerPart (updates ++ [message]) =
      if message.partNumber ∈ (firstPerPart updates).map FoundWordsMessage.partNumber then
        firstPerPart updates
      else firstPerPart updates ++ [message] := by
  rw [firstPerPart, foldl_append]
  rfl

/-- What holds of the document at every moment. -/
structure Tallied (partCount : Nat) (s : Handling) : Prop where
  partCount_eq : s.doc.partCount = partCount
  counted : WellCounted s.doc
  completed_eq : s.doc.completedPartNumbers = (firstPerPart s.updates).map FoundWordsMessage.partNumber
  results_eq : s.doc.results = (firstPerPart s.updates).flatMap FoundWordsMessage.answers
  ready_completed : s.doc.status = .ready → AllCompleted s.doc
  /-- Unless the request is ready, no call for some part has returned. -/
  handled_ready : s.doc.status ≠ .ready → ∃ i < partCount, ∀ message ∈ s.handled,
    message.partNumber.toInt ≠ i

/-- What the calls in progress know. -/
structure Progress (s : Handling) : Prop where
  inRange : ∀ handler ∈ s.handlers,
    0 ≤ handler.message.partNumber.toInt ∧ handler.message.partNumber.toInt < s.doc.partCount
  added : ∀ handler ∈ s.handlers, handler.stage ≠ .addResults →
    handler.message.partNumber ∈ s.doc.completedPartNumbers
  marking : ∀ handler ∈ s.handlers, handler.stage = .markReady → AllCompleted s.doc
  handled_completed : ∀ message ∈ s.handled, message.partNumber ∈ s.doc.completedPartNumbers

/-- The update of a call. -/
theorem step_addResults {i : Nat} (htally : Tallied partCount s) (hprogress : Progress s)
    (hget : s.handlers[i]? = some handler) {doc : CrackRequest}
    (hdoc : doc = addResults handler.message.partNumber handler.message.answers s.doc)
    {handlers : List Handler} (hhandlers : handlers = s.handlers.set i { handler with stage := .get }) :
    Tallied partCount { s with
      doc := doc, handlers := handlers, updates := s.updates ++ [handler.message] } ∧
      Progress { s with doc := doc, handlers := handlers, updates := s.updates ++ [handler.message] } := by
  subst hdoc hhandlers
  have hmem : handler ∈ s.handlers := mem_of_getElem? hget
  have hrange := hprogress.inRange handler hmem
  obtain ⟨hstatus, hcount, -, -⟩ :=
    addResults_fields handler.message.partNumber handler.message.answers s.doc
  have hcompleted := mem_completed_addResults handler.message.partNumber handler.message.answers s.doc
  refine ⟨⟨hcount.trans htally.partCount_eq, htally.counted.addResults hrange _, ?_, ?_, ?_, ?_⟩,
    ⟨?_, ?_, ?_, ?_⟩⟩
  · dsimp only
    rw [firstPerPart_append, ← htally.completed_eq, addResults]
    split_ifs with hin
    · exact htally.completed_eq
    · rw [map_append, ← htally.completed_eq]
      rfl
  · dsimp only
    rw [firstPerPart_append, ← htally.completed_eq, addResults]
    split_ifs with hin
    · exact htally.results_eq
    · rw [flatMap_append, ← htally.results_eq]
      simp
  · intro hready
    rw [hstatus] at hready
    exact (htally.ready_completed hready).addResults _ _
  · intro hready
    rw [hstatus] at hready
    exact htally.handled_ready hready
  · intro h hh
    dsimp only at hh ⊢
    rw [hcount]
    rcases mem_or_eq_of_mem_set hh with hh | rfl
    · exact hprogress.inRange h hh
    · exact hrange
  · intro h hh hstage
    rcases mem_or_eq_of_mem_set hh with hh | rfl
    · exact (hcompleted _).mpr (.inl (hprogress.added h hh hstage))
    · exact (hcompleted _).mpr (.inr rfl)
  · intro h hh hstage
    rcases mem_or_eq_of_mem_set hh with hh | rfl
    · exact (hprogress.marking h hh hstage).addResults _ _
    · cases hstage
  · intro message hmessage
    exact (hcompleted _).mpr (.inl (hprogress.handled_completed message hmessage))

theorem exists_missing (h : ¬ AllCompleted req) :
    ∃ i < req.partCount, ∀ p ∈ req.completedPartNumbers, p.toInt ≠ i := by
  rw [AllCompleted] at h
  push Not at h
  exact h

/-- A call returns whose part is completed. -/
theorem Progress.returned (h : Progress s) (i : Nat)
    (hadded : handler.message.partNumber ∈ s.doc.completedPartNumbers) :
    Progress { s with handlers := s.handlers.eraseIdx i, handled := s.handled ++ [handler.message] } where
  inRange _ hmem := h.inRange _ (mem_of_mem_eraseIdx hmem)
  added _ hmem := h.added _ (mem_of_mem_eraseIdx hmem)
  marking _ hmem := h.marking _ (mem_of_mem_eraseIdx hmem)
  handled_completed message hmem := by
    rcases mem_append.mp hmem with hmem | hmem
    · exact h.handled_completed message hmem
    · rw [mem_singleton.mp hmem]
      exact hadded

/-- One step of a call keeps the tally. -/
theorem step_tallied (hinv : Tallied partCount s ∧ Progress s)
    (hmessage : ∀ message, action = .start message →
      0 ≤ message.partNumber.toInt ∧ message.partNumber.toInt < partCount)
    (hstep : s.step action = some s') : Tallied partCount s' ∧ Progress s' := by
  obtain ⟨htally, hprogress⟩ := hinv
  cases action with
  | start message =>
    cases hstep
    refine ⟨{ htally with }, ⟨?_, ?_, ?_, hprogress.handled_completed⟩⟩
    · intro handler hhandler
      rcases mem_append.mp hhandler with hhandler | hhandler
      · exact hprogress.inRange handler hhandler
      · rw [mem_singleton.mp hhandler]
        dsimp only
        rw [htally.partCount_eq]
        exact hmessage message rfl
    · intro handler hhandler hstage
      rcases mem_append.mp hhandler with hhandler | hhandler
      · exact hprogress.added handler hhandler hstage
      · rw [mem_singleton.mp hhandler] at hstage
        exact absurd rfl hstage
    · intro handler hhandler hstage
      rcases mem_append.mp hhandler with hhandler | hhandler
      · exact hprogress.marking handler hhandler hstage
      · rw [mem_singleton.mp hhandler] at hstage
        cases hstage
  | advance i =>
    rw [Handling.step] at hstep
    cases hget : s.handlers[i]? with
    | none =>
      rw [hget] at hstep
      cases hstep
    | some handler =>
      rw [hget] at hstep
      have hmem : handler ∈ s.handlers := mem_of_getElem? hget
      cases hstage : handler.stage with
      | addResults =>
        simp only [Handler.step, hstage] at hstep
        cases hstep
        exact step_addResults htally hprogress hget rfl rfl
      | get =>
        have hadded := hprogress.added handler hmem (by rw [hstage]; decide)
        by_cases hall : s.doc.completedParts ≥ s.doc.partCount
        · -- the call goes on to mark the request
          simp only [Handler.step, hstage, if_pos hall] at hstep
          cases hstep
          have hcomplete := htally.counted.completedParts_ge_iff.mp hall
          refine ⟨{ htally with }, ⟨?_, ?_, ?_, hprogress.handled_completed⟩⟩
          · intro h hh
            rcases mem_or_eq_of_mem_set hh with hh | rfl
            · exact hprogress.inRange h hh
            · exact hprogress.inRange handler hmem
          · intro h hh hne
            rcases mem_or_eq_of_mem_set hh with hh | rfl
            · exact hprogress.added h hh hne
            · exact hadded
          · intro h hh hmarking
            exact hcomplete
        · -- a part is missing, and it is not the one of this call
          simp only [Handler.step, hstage, if_neg hall] at hstep
          cases hstep
          obtain ⟨missing, hlt, hmissing⟩ :=
            exists_missing (mt htally.counted.completedParts_ge_iff.mpr hall)
          have hreturned := hprogress.returned i hadded
          refine ⟨{ htally with handled_ready := fun _ => ⟨missing, htally.partCount_eq ▸ hlt, ?_⟩ },
            hreturned⟩
          exact fun message hmem => hmissing _ (hreturned.handled_completed message hmem)
      | markReady =>
        have hcomplete := hprogress.marking handler hmem hstage
        have hadded := hprogress.added handler hmem (by rw [hstage]; decide)
        simp only [Handler.step, hstage] at hstep
        cases hstep
        exact ⟨⟨htally.partCount_eq, { htally.counted with }, htally.completed_eq,
          htally.results_eq, fun _ => hcomplete,
          fun hne => absurd rfl hne⟩, { hprogress.returned i hadded with }⟩

/-- The calls and the updates are those of delivered messages. -/
structure FromDeliveries (delivered : FoundWordsMessage → Prop) (s : Handling) : Prop where
  handlers : ∀ handler ∈ s.handlers, delivered handler.message
  updates : ∀ message ∈ s.updates, delivered message

theorem Handler.step_message {next : Handler} {ok : Bool} {doc doc' : Option CrackRequest}
    (h : handler.step ok doc = (doc', some next)) : next.message = handler.message := by
  obtain ⟨message, stage⟩ := handler
  cases stage with
  | addResults =>
    cases ok <;> cases h
    rfl
  | get =>
    cases ok with
    | false => cases h
    | true =>
      cases doc with
      | none => cases h
      | some req =>
        simp only [Handler.step] at h
        split at h <;> cases h
        rfl
  | markReady => cases ok <;> cases h

theorem step_fromDeliveries {delivered : FoundWordsMessage → Prop} (hinv : FromDeliveries delivered s)
    (hmessage : ∀ message, action = .start message → delivered message) (hstep : s.step action = some s') :
    FromDeliveries delivered s' := by
  cases action with
  | start message =>
    cases hstep
    refine ⟨?_, hinv.updates⟩
    intro handler hhandler
    rcases mem_append.mp hhandler with hhandler | hhandler
    · exact hinv.handlers handler hhandler
    · rw [mem_singleton.mp hhandler]
      exact hmessage message rfl
  | advance i =>
    rw [Handling.step] at hstep
    cases hget : s.handlers[i]? with
    | none =>
      rw [hget] at hstep
      cases hstep
    | some handler =>
      rw [hget] at hstep
      have hdelivered := hinv.handlers handler (mem_of_getElem? hget)
      cases hnext : handler.step true (some s.doc) with
      | mk doc next =>
        simp only [hnext] at hstep
        cases hstep
        constructor
        · cases next with
          | none => exact fun h hh => hinv.handlers h (mem_of_mem_eraseIdx hh)
          | some next =>
            intro h hh
            rcases mem_or_eq_of_mem_set hh with hh | rfl
            · exact hinv.handlers h hh
            · rw [Handler.step_message hnext]
              exact hdelivered
        · intro message hupdate
          dsimp only at hupdate
          split_ifs at hupdate
          · rcases mem_append.mp hupdate with hupdate | hupdate
            · exact hinv.updates message hupdate
            · rw [mem_singleton.mp hupdate]
              exact hdelivered
          · exact hinv.updates message hupdate

/-- Over every interleaving of the handling of delivered messages: parts are counted once, the
    results are those of the first update of each part, the request is ready only when all parts are
    completed and is ready once a call for every part has returned, and `GetStatus` shows results
    only then. -/
theorem foundWords_counted_once (id : Uuid) (hash : String) (maxLength : Int) (alphabet : String)
    (partCount : Nat) (hpos : 0 < partCount) (actions : List HandlingAction)
    (hmessages : ∀ message : FoundWordsMessage, HandlingAction.start message ∈ actions →
      0 ≤ message.partNumber.toInt ∧ message.partNumber.toInt < partCount) (s : Handling)
    (hrun : run Handling.step (.initial (createRequest id hash maxLength partCount alphabet)) actions =
    some s) : s.doc.completedPartNumbers.Nodup ∧
      s.doc.completedParts = s.doc.completedPartNumbers.length ∧
      (∀ message ∈ s.updates, HandlingAction.start message ∈ actions) ∧
      s.doc.completedPartNumbers = (firstPerPart s.updates).map FoundWordsMessage.partNumber ∧
      s.doc.results = (firstPerPart s.updates).flatMap FoundWordsMessage.answers ∧
      (s.doc.status = .ready → ∀ i < partCount, ∃ p ∈ s.doc.completedPartNumbers, p.toInt = i) ∧
      ((∀ i < partCount, ∃ message ∈ s.handled, message.partNumber.toInt = i) → s.doc.status = .ready) ∧
      ∀ status results, getStatus (some s.doc) = some (status, some results) →
        status = .ready ∧ results = s.doc.results ∧
          ∀ i < partCount, ∃ p ∈ s.doc.completedPartNumbers, p.toInt = i := by
  have hinit : Tallied partCount (.initial (createRequest id hash maxLength partCount alphabet)) ∧
      Progress (.initial (createRequest id hash maxLength partCount alphabet)) := by
    have hcounted : WellCounted (createRequest id hash maxLength partCount alphabet) :=
      ⟨nodup_nil, rfl, fun p hp => absurd hp not_mem_nil⟩
    refine ⟨⟨rfl, hcounted, rfl, rfl, fun h => ?_, fun _ => ⟨0, hpos, fun m hm => absurd hm not_mem_nil⟩⟩,
      ⟨fun h hh => ?_, fun h hh => ?_, fun h hh => ?_, fun m hm => ?_⟩⟩
    · cases h
    · cases hh
    · cases hh
    · cases hh
    · cases hm
  have hmembers : EveryStep Handling.step (fun _ action => action ∈ actions)
      (.initial (createRequest id hash maxLength partCount alphabet)) actions :=
    everyStep_of_forall (fun action haction _ => haction) _
  obtain ⟨htally, -⟩ := run_invariant
    (fun s action s' hinv hmem hstep =>
      step_tallied hinv (fun message heq => hmessages message (heq ▸ hmem)) hstep) hinit hmembers hrun
  have hdeliveries : FromDeliveries (fun message => .start message ∈ actions) s :=
    run_invariant
      (fun s action s' hinv hmem hstep => step_fromDeliveries hinv (fun message heq => heq ▸ hmem) hstep)
      ⟨fun _ hh => absurd hh not_mem_nil, fun _ hm => absurd hm not_mem_nil⟩ hmembers hrun
  have hready : s.doc.status = .ready → ∀ i < partCount, ∃ p ∈ s.doc.completedPartNumbers, p.toInt = i := by
    intro hstatus i hi
    exact htally.ready_completed hstatus i (by rw [htally.partCount_eq]; exact hi)
  refine ⟨htally.counted.nodup, htally.counted.count, hdeliveries.updates, htally.completed_eq,
    htally.results_eq, hready, ?_, ?_⟩
  · intro hall
    by_contra hstatus
    obtain ⟨i, hi, hnone⟩ := htally.handled_ready hstatus
    obtain ⟨message, hmessage, hpart⟩ := hall i hi
    exact hnone message hmessage hpart
  · intro status results hget
    rw [getStatus, map_some, some.injEq] at hget
    by_cases hstatus : s.doc.status = .ready
    · rw [if_neg (not_not.mpr hstatus)] at hget
      obtain ⟨rfl, hresults⟩ := Prod.mk.inj hget
      exact ⟨hstatus, (some.inj hresults).symm, hready hstatus⟩
    · rw [if_pos hstatus] at hget
      cases hget

/-- Two parts, the first one delivered twice and the calls interleaved. -/
def redeliveryRun : List HandlingAction :=
  [.start ⟨7, 0, ["abc"]⟩, .start ⟨7, 1, []⟩, .start ⟨7, 0, ["abc"]⟩, .advance 0, .advance 2, .advance 1,
    .advance 0, .advance 0, .advance 0, .advance 0, .advance 0, .advance 0]

theorem foundWords_counted_once_redelivery :
    ∃ s, run Handling.step (.initial (createRequest 7 "" 3 2 alphabet)) redeliveryRun = some s ∧
      s.doc.completedPartNumbers.Nodup ∧ s.doc.results = ["abc"] ∧ s.doc.status = .ready := by
  have hmessages : ∀ message : FoundWordsMessage, HandlingAction.start message ∈ redeliveryRun →
      0 ≤ message.partNumber.toInt ∧ message.partNumber.toInt < (2 : Nat) := by
    intro message hmessage
    simp only [redeliveryRun, mem_cons, HandlingAction.start.injEq, not_mem_nil, reduceCtorEq, or_false]
      at hmessage
    rcases hmessage with rfl | rfl | rfl <;> decide
  refine ⟨_, rfl, ?_, rfl, rfl⟩
  exact (foundWords_counted_once 7 "" 3 alphabet 2 (by decide) redeliveryRun hmessages _ rfl).1

end NsuLabs.CrackHash

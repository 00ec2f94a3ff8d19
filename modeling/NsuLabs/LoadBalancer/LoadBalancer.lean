/-
Module: NsuLabs.LoadBalancer.LoadBalancer
Purpose: The load balancer (OPP-Labs/lab_5_loadbalancing): every process has a queue of tasks that its main
  thread fills and that its worker, sender and receiver threads share; the receiver asks the other processes
  for tasks and the sender answers. A step is what one thread does between two accesses to what it shares.
Trusted boundary: messages between two processes do not overtake each other; `Size` reads a size the queue
  has had
Main exports: World, tasks_conserved_iff
-/
import NsuLabs.Lib.Runs

namespace NsuLabs.LoadBalancer

/-- A task, which is the time that it takes. -/
structure Task where
  timeMs : Int
deriving DecidableEq

/-- Who asks for tasks, and for how many. -/
structure TasksRequest where
  sourceProcRank : Nat
  wantedCount : Int
deriving DecidableEq

def minTasksInQueueToShare : Nat := 5

def maxTasksToShare : Int := 40

def minTasksInQueueToRequestNew : Nat := 10

def wantedTasksCount : Int := 20000

/-- Where `WorkerThread::EntryPoint` is. -/
inductive Worker where
  /-- The thread has ended, or has not been started yet. -/
  | joined
  | testing
  | popping
  | executing (task : Task)
deriving DecidableEq

/-- Where `SenderThread::EntryPoint` is. -/
inductive Sender where
  /-- In `ReceiveTasksRequest`. -/
  | waiting
  /-- In front of the test of the loop and of `TryPop`. -/
  | sharing (request : TasksRequest) (i : Nat) (tasksToSend : List Task)
  /-- In front of `Size`, behind a `TryPop` that has returned a task. -/
  | checking (request : TasksRequest) (i : Nat) (tasksToSend : List Task) (task : Task)
  | sending (request : TasksRequest) (tasksToSend : List Task)
deriving DecidableEq

/-- Where `ReceiverThread::EntryPoint` is. -/
inductive Receiver where
  /-- Waiting for `mWakeUp`. -/
  | sleeping
  /-- In front of the next process of the order. -/
  | asking (order : List Nat) (wantedCount : Int) (receivedTasksCount : Nat)
  /-- In `ReceiveTasks`. -/
  | awaiting (proc : Nat) (order : List Nat) (wantedCount : Int) (receivedTasksCount : Nat)
  | pushing (receivedTasks : List Task) (order : List Nat) (wantedCount : Int) (receivedTasksCount : Nat)
deriving DecidableEq

/-- The queue and the three threads of one process. -/
structure Process where
  queue : List Task
  /-- `mInterrupted` of the queue. -/
  interrupted : Bool
  worker : Worker
  /-- `mStopped` of the worker. -/
  workerStopped : Bool
  sender : Sender
  receiver : Receiver
  /-- `mTasksRequested` of the receiver. -/
  tasksRequested : Bool
  /-- The tasks that the main thread has put into the queue. -/
  generated : List Task
  executed : List Task
deriving DecidableEq

/-- Tasks on their way. -/
structure TasksMessage where
  source : Nat
  dest : Nat
  tasks : List Task
deriving DecidableEq

/-- The messages that have been sent and not yet received, in the order of sending. -/
structure Network where
  /-- Requests with the rank they are sent to. -/
  requests : List (Nat × TasksRequest)
  tasks : List TasksMessage
deriving DecidableEq

def Process.initial : Process where
  queue := []
  interrupted := false
  worker := .joined
  workerStopped := false
  sender := .waiting
  receiver := .sleeping
  tasksRequested := false
  generated := []
  executed := []

/-- What a thread of the process does next. -/
inductive ThreadAction where
  /-- The main thread generates a task. -/
  | emplace (task : Task)
  | startWorker
  | worker
  /-- The sender receives a request that is on its way. -/
  | acceptRequest (k : Nat)
  /-- The receive of a request is cancelled when it has already been matched. -/
  | loseRequest (k : Nat)
  | sender
  /-- The receiver wakes up; `order` is the shuffled order of the processes. -/
  | wakeUp (order : List Nat)
  | receiver
  /-- The receiver receives tasks that are on their way. -/
  | receiveTasks (k : Nat)
  /-- `ReceiveTasks` times out. -/
  | timeout
deriving DecidableEq

/-- The next step of the worker. -/
def Process.workerStep (p : Process) : Option Process :=
  match p.worker with
  | .joined => none
  | .testing =>
    if ¬ p.workerStopped ∨ p.queue ≠ [] then some { p with worker := .popping, tasksRequested := true }
    else some { p with worker := .joined }
  | .popping =>
    -- WaitAndPop
    if p.interrupted then some { p with interrupted := false, worker := .testing }
    else match p.queue with
      | [] => none
      | task :: queue => some { p with queue := queue, worker := .executing task }
  | .executing task => some { p with executed := p.executed ++ [task], worker := .testing }

/-- The next step of the sender outside of `ReceiveTasksRequest`. -/
def Process.senderStep (rank : Nat) (p : Process) (net : Network) : Option (Process × Network) :=
  match p.sender with
  | .waiting => none
  | .sharing request i tasksToSend =>
    if i < min request.wantedCount maxTasksToShare then
      match p.queue with
      | [] => some ({ p with sender := .sending request tasksToSend }, net)
      | task :: queue => some
          ({ p with queue := queue, sender := .checking request i tasksToSend task }, net)
    else some ({ p with sender := .sending request tasksToSend }, net)
  | .checking request i tasksToSend task =>
    -- the loop is left with the task in a local variable
    if p.queue.length < minTasksInQueueToShare then
      some ({ p with sender := .sending request tasksToSend }, net)
    else some ({ p with sender := .sharing request (i + 1) (tasksToSend ++ [task]) }, net)
  | .sending request tasksToSend =>
    some ({ p with sender := .waiting },
      { net with tasks := net.tasks ++ [⟨rank, request.sourceProcRank, tasksToSend⟩] })

/-- The end of a pass of the receiver; without tasks the callback stops the worker. -/
def Process.endPass (p : Process) (receivedTasksCount : Nat) : Process :=
  if receivedTasksCount = 0 then { p with receiver := .sleeping, workerStopped := true, interrupted := true }
  else { p with receiver := .sleeping }

/-- The next step of the receiver outside of the wait for `mWakeUp` and of `ReceiveTasks`. -/
def Process.receiverStep (rank : Nat) (p : Process) (net : Network) : Option (Process × Network) :=
  match p.receiver with
  | .sleeping => none
  | .asking [] _ receivedTasksCount => some (p.endPass receivedTasksCount, net)
  | .asking (proc :: order) wantedCount receivedTasksCount =>
    if proc = rank then some ({ p with receiver := .asking order wantedCount receivedTasksCount }, net)
    else
      some ({ p with receiver := .awaiting proc order wantedCount receivedTasksCount },
        { net with requests := net.requests ++ [(proc, ⟨rank, wantedCount⟩)] })
  | .awaiting _ _ _ _ => none
  | .pushing [] order wantedCount receivedTasksCount =>
    if wantedCount ≤ 0 then some (p.endPass receivedTasksCount, net)
    else some ({ p with receiver := .asking order wantedCount receivedTasksCount }, net)
  | .pushing (task :: tasks) order wantedCount receivedTasksCount =>
    some ({ p with
      queue := p.queue ++ [task]
      receiver := .pushing tasks order wantedCount receivedTasksCount }, net)

/-- One step of a thread of the process `rank` out of `procCount`. -/
def Process.step (rank procCount : Nat) (p : Process) (net : Network) :
    ThreadAction → Option (Process × Network)
  | .emplace task =>
    -- GenerateTasks runs between two workers
    if p.worker = .joined then
      some ({ p with queue := p.queue ++ [task], generated := p.generated ++ [task] }, net)
    else none
  | .startWorker =>
    if p.worker = .joined then some ({ p with worker := .testing, workerStopped := false }, net) else none
  | .worker => p.workerStep.map fun p => (p, net)
  | .acceptRequest k =>
    match p.sender, net.requests[k]? with
    | .waiting, some (dest, request) =>
      if dest = rank then
        some ({ p with sender := .sharing request 0 [] }, { net with requests := net.requests.eraseIdx k })
      else none
    | _, _ => none
  | .loseRequest k =>
    match p.sender, net.requests[k]? with
    | .waiting, some (dest, _) =>
      if dest = rank then some (p, { net with requests := net.requests.eraseIdx k }) else none
    | _, _ => none
  | .sender => p.senderStep rank net
  | .wakeUp order =>
    match p.receiver with
    | .sleeping =>
      if p.tasksRequested then
        if p.queue.length > minTasksInQueueToRequestNew then some ({ p with tasksRequested := false }, net)
        else if order.isPerm (List.range procCount) then
          some ({ p with tasksRequested := false, receiver := .asking order wantedTasksCount 0 }, net)
        else none
      else some (p, net)
    | _ => none
  | .receiver => p.receiverStep rank net
  | .receiveTasks k =>
    match p.receiver, net.tasks[k]? with
    | .awaiting proc order wantedCount receivedTasksCount, some message =>
      if message.source = proc ∧ message.dest = rank ∧
          ∀ earlier ∈ net.tasks.take k, ¬ (earlier.source = proc ∧ earlier.dest = rank) then
        some
          ({ p with
              receiver := .pushing message.tasks order (wantedCount - message.tasks.length)
                (receivedTasksCount + message.tasks.length) },
            { net with tasks := net.tasks.eraseIdx k })
      else none
    | _, _ => none
  | .timeout =>
    match p.receiver with
    | .awaiting _ order wantedCount receivedTasksCount =>
      some ({ p with receiver := .pushing [] order wantedCount receivedTasksCount }, net)
    | _ => none

/-- All processes and the messages between them. -/
structure World where
  procs : List Process
  net : Network
deriving DecidableEq

def World.initial (procCount : Nat) : World where
  procs := List.replicate procCount .initial
  net := ⟨[], []⟩

/-- A step of one process. -/
structure Action where
  rank : Nat
  thread : ThreadAction
deriving DecidableEq

def World.step (w : World) (action : Action) : Option World :=
  match w.procs[action.rank]? with
  | none => none
  | some p =>
    match p.step action.rank w.procs.length w.net action.thread with
    | none => none
    | some (p, net) => some { procs := w.procs.set action.rank p, net := net }

open Lib List

/-! ### Where the tasks are -/

def Worker.held : Worker → List Task
  | executing task => [task]
  | joined | testing | popping => []

def Sender.held : Sender → List Task
  | waiting => []
  | sharing _ _ tasksToSend => tasksToSend
  | checking _ _ tasksToSend task => tasksToSend ++ [task]
  | sending _ tasksToSend => tasksToSend

def Receiver.held : Receiver → List Task
  | pushing receivedTasks _ _ _ => receivedTasks
  | sleeping | asking _ _ _ | awaiting _ _ _ _ => []

/-- The tasks of a process, executed ones included. -/
def Process.tasks (p : Process) : Multiset Task :=
  ↑p.queue + ↑p.worker.held + ↑p.sender.held + ↑p.receiver.held + ↑p.executed

def Network.inTransit (net : Network) : Multiset Task :=
  (net.tasks.map fun message => (message.tasks : Multiset Task)).sum

def World.tasks (w : World) : Multiset Task := (w.procs.map Process.tasks).sum + w.net.inTransit

def World.generated (w : World) : Multiset Task := (w.procs.map fun p => (p.generated : Multiset Task)).sum

/-- The task that the next step of the sender drops. -/
def Process.dropped (p : Process) : ThreadAction → Multiset Task
  | .sender =>
    match p.sender with
    | .checking _ _ _ task => if p.queue.length < minTasksInQueueToShare then {task} else 0
    | _ => 0
  | _ => 0

def World.dropped (w : World) (action : Action) : Multiset Task :=
  match w.procs[action.rank]? with
  | some p => p.dropped action.thread
  | none => 0

/-- The sender looks at the queue behind a `TryPop` only while enough tasks are left in it. -/
def EnoughLeft (w : World) (action : Action) : Prop :=
  ∀ p request i tasksToSend task, w.procs[action.rank]? = some p → action.thread = .sender →
    p.sender = .checking request i tasksToSend task → minTasksInQueueToShare ≤ p.queue.length

theorem dropped_eq_zero_iff (w : World) (action : Action) : w.dropped action = 0 ↔ EnoughLeft w action := by
  obtain ⟨rank, thread⟩ := action
  constructor
  · rintro hzero p request i tasksToSend task hp rfl hsender
    simp only [World.dropped, hp, Process.dropped, hsender] at hzero
    split_ifs at hzero with hfew
    · exact absurd hzero (Multiset.singleton_ne_zero task)
    · exact Nat.le_of_not_lt hfew
  · intro henough
    rw [World.dropped]
    split
    case h_2 => rfl
    case h_1 p hp =>
      cases thread with
      | sender =>
        rw [Process.dropped]
        split
        case h_2 => rfl
        case h_1 request i tasksToSend task hsender =>
          exact if_neg (Nat.not_lt_of_le (henough p request i tasksToSend task hp rfl hsender))
      | _ => rfl

instance (w : World) (action : Action) : Decidable (EnoughLeft w action) :=
  decidable_of_iff (w.dropped action = 0) (dropped_eq_zero_iff w action)

/-! ### The balance of one step -/

theorem coe_concat (xs : List Task) (x : Task) : ((xs ++ [x] : List Task) : Multiset Task) = ↑xs + {x} := rfl

theorem coe_cons_add (x : Task) (xs : List Task) : ((x :: xs : List Task) : Multiset Task) = ↑xs + {x} := by
  rw [← Multiset.cons_coe, Multiset.add_comm, Multiset.singleton_add]

/-- What a step of a thread has to balance. -/
def Balanced (p : Process) (net : Network) (dropped : Multiset Task) (p' : Process) (net' : Network) :
    Prop :=
  p'.tasks + net'.inTransit + dropped + ↑p.generated = p.tasks + net.inTransit + ↑p'.generated

theorem inTransit_append (net : Network) (message : TasksMessage) :
    Network.inTransit { net with tasks := net.tasks ++ [message] } = net.inTransit + ↑message.tasks := by
  rw [Network.inTransit, map_append, sum_append, map_singleton, sum_singleton]
  rfl

theorem inTransit_eraseIdx (net : Network) {k : Nat} {message : TasksMessage}
    (h : net.tasks[k]? = some message) :
    net.inTransit = Network.inTransit { net with tasks := net.tasks.eraseIdx k } + ↑message.tasks := by
  obtain ⟨hk, rfl⟩ := List.getElem?_eq_some_iff.mp h
  have hperm := (getElem_cons_eraseIdx_perm hk).map fun message => (message.tasks : Multiset Task)
  rw [Network.inTransit, ← hperm.sum_eq, map_cons, sum_cons, add_comm]
  rfl

section Steps

variable {rank procCount : Nat} {p p' : Process} {net net' : Network}

theorem balanced_workerStep (hstep : p.workerStep = some p') : Balanced p net 0 p' net := by
  obtain ⟨queue, interrupted, worker, stopped, sender, receiver, requested, generated, executed⟩ := p
  cases worker with
  | joined => cases hstep
  | testing =>
    simp only [Process.workerStep] at hstep
    split_ifs at hstep <;> cases hstep <;> simp [Balanced, Process.tasks, Worker.held]
  | popping =>
    cases queue with
    | nil =>
      simp only [Process.workerStep] at hstep
      split_ifs at hstep
      cases hstep
      simp [Balanced, Process.tasks, Worker.held]
    | cons task queue =>
      simp only [Process.workerStep] at hstep
      split_ifs at hstep
      · cases hstep
        simp [Balanced, Process.tasks, Worker.held]
      · cases hstep
        simp only [Balanced, Process.tasks, Worker.held, coe_cons_add, Multiset.coe_nil]
        abel
  | executing task =>
    cases hstep
    simp only [Balanced, Process.tasks, Worker.held, coe_concat, coe_cons_add, Multiset.coe_nil]
    abel

theorem balanced_senderStep (hstep : p.senderStep rank net = some (p', net')) :
    Balanced p net (p.dropped .sender) p' net' := by
  obtain ⟨queue, interrupted, worker, stopped, sender, receiver, requested, generated, executed⟩ := p
  cases sender with
  | waiting => cases hstep
  | sharing request i tasksToSend =>
    simp only [Process.senderStep] at hstep
    split_ifs at hstep
    · cases queue with
      | nil =>
        cases hstep
        simp [Balanced, Process.tasks, Process.dropped, Sender.held]
      | cons task queue =>
        cases hstep
        simp only [Balanced, Process.tasks, Process.dropped, Sender.held, coe_concat, coe_cons_add]
        abel
    · cases hstep
      simp [Balanced, Process.tasks, Process.dropped, Sender.held]
  | checking request i tasksToSend task =>
    simp only [Process.senderStep] at hstep
    split_ifs at hstep with hfew
    · -- the task is on neither side but for the drop
      cases hstep
      simp only [Balanced, Process.tasks, Process.dropped, Sender.held, coe_concat, if_pos hfew]
      abel
    · cases hstep
      simp only [Balanced, Process.tasks, Process.dropped, Sender.held, coe_concat, if_neg hfew]
      abel
  | sending request tasksToSend =>
    cases hstep
    simp only [Balanced, Process.tasks, Process.dropped, Sender.held, inTransit_append, Multiset.coe_nil]
    abel

theorem tasks_endPass (p : Process) (receivedTasksCount : Nat) :
    (p.endPass receivedTasksCount).tasks + ↑p.receiver.held = p.tasks := by
  rw [Process.endPass]
  split_ifs <;> simp only [Process.tasks, Receiver.held, Multiset.coe_nil] <;> abel

theorem generated_endPass (p : Process) (receivedTasksCount : Nat) :
    (p.endPass receivedTasksCount).generated = p.generated := by
  rw [Process.endPass]
  split_ifs <;> rfl

theorem balanced_endPass (receivedTasksCount : Nat) (hheld : p.receiver.held = []) :
    Balanced p net 0 (p.endPass receivedTasksCount) net := by
  have htasks := tasks_endPass p receivedTasksCount
  rw [hheld, Multiset.coe_nil, add_zero] at htasks
  rw [Balanced, htasks, generated_endPass, add_zero]

theorem balanced_receiverStep (hstep : p.receiverStep rank net = some (p', net')) :
    Balanced p net 0 p' net' := by
  rw [Process.receiverStep] at hstep
  split at hstep
  case h_1 => cases hstep
  case h_2 hreceiver =>
    cases hstep
    exact balanced_endPass _ (by rw [hreceiver]; rfl)
  case h_3 hreceiver =>
    split_ifs at hstep <;> cases hstep <;> simp [Balanced, Process.tasks, Network.inTransit,
      hreceiver, Receiver.held]
  case h_4 => cases hstep
  case h_5 hreceiver =>
    split_ifs at hstep
    · cases hstep
      exact balanced_endPass _ (by rw [hreceiver]; rfl)
    · cases hstep
      simp [Balanced, Process.tasks, hreceiver, Receiver.held]
  case h_6 hreceiver =>
    cases hstep
    simp only [Balanced, Process.tasks, hreceiver, Receiver.held, coe_concat, coe_cons_add]
    abel

theorem balanced_step {thread : ThreadAction} (hstep : p.step rank procCount net thread = some (p', net')) :
    Balanced p net (p.dropped thread) p' net' := by
  cases thread with
  | emplace task =>
    rw [Process.step] at hstep
    split_ifs at hstep
    cases hstep
    simp only [Balanced, Process.tasks, Process.dropped, coe_concat]
    abel
  | startWorker =>
    rw [Process.step] at hstep
    split_ifs at hstep with hjoined
    cases hstep
    simp [Balanced, Process.tasks, Process.dropped, hjoined, Worker.held]
  | worker =>
    rw [Process.step] at hstep
    obtain ⟨q, hq, heq⟩ := Option.map_eq_some_iff.mp hstep
    cases heq
    exact balanced_workerStep hq
  | acceptRequest k =>
    rw [Process.step] at hstep
    split at hstep
    case h_2 => cases hstep
    case h_1 hsender _ =>
      split_ifs at hstep
      cases hstep
      simp [Balanced, Process.tasks, Process.dropped, Network.inTransit, hsender, Sender.held]
  | loseRequest k =>
    rw [Process.step] at hstep
    split at hstep
    case h_2 => cases hstep
    case h_1 =>
      split_ifs at hstep
      cases hstep
      simp [Balanced, Process.dropped, Network.inTransit]
  | sender => exact balanced_senderStep hstep
  | wakeUp order =>
    rw [Process.step] at hstep
    split at hstep
    case h_2 => cases hstep
    case h_1 hreceiver =>
      split_ifs at hstep <;> cases hstep <;>
        simp [Balanced, Process.tasks, Process.dropped, hreceiver, Receiver.held]
  | receiver => exact balanced_receiverStep hstep
  | receiveTasks k =>
    rw [Process.step] at hstep
    split at hstep
    case h_2 => cases hstep
    case h_1 message hreceiver hmessage =>
      split_ifs at hstep
      cases hstep
      rw [Balanced, inTransit_eraseIdx net hmessage]
      simp only [Process.tasks, Process.dropped, hreceiver, Receiver.held, Multiset.coe_nil]
      abel
  | timeout =>
    rw [Process.step] at hstep
    split at hstep
    case h_2 => cases hstep
    case h_1 hreceiver =>
      cases hstep
      simp [Balanced, Process.tasks, Process.dropped, hreceiver, Receiver.held]

end Steps

/-! ### Whole runs -/

theorem step_balance (w : World) (action : Action) (w' : World) (hstep : w.step action = some w') :
    w'.tasks + w.dropped action + w.generated = w.tasks + w'.generated := by
  rw [World.step] at hstep
  cases hproc : w.procs[action.rank]? with
  | none =>
    rw [hproc] at hstep
    cases hstep
  | some p =>
    cases hlocal : p.step action.rank w.procs.length w.net action.thread with
    | none =>
      simp only [hproc, hlocal] at hstep
      cases hstep
    | some result =>
      obtain ⟨p', net'⟩ := result
      simp only [hproc, hlocal] at hstep
      cases hstep
      have hbalanced := balanced_step hlocal
      have htasks := sum_map_set Process.tasks p' hproc
      have hgenerated := sum_map_set (fun p : Process => (p.generated : Multiset Task)) p' hproc
      rw [World.dropped, hproc]
      exact balance_of_part htasks hgenerated hbalanced

theorem initial_balanced (procCount : Nat) :
    (World.initial procCount).tasks = (World.initial procCount).generated := by
  simp [World.tasks, World.generated, World.initial, Network.inTransit, Process.tasks,
    Process.initial, Worker.held, Sender.held, Receiver.held]

/-- At the end of a run no task is missing or doubled if and only if the sender has never dropped
    one. -/
theorem tasks_conserved_iff (procCount : Nat) (actions : List Action) (w : World)
    (hrun : run World.step (.initial procCount) actions = some w) :
    w.tasks = w.generated ↔ EveryStep World.step EnoughLeft (.initial procCount) actions := by
  rw [conserved_iff step_balance (initial_balanced procCount) hrun]
  simp only [dropped_eq_zero_iff]

/-- Six tasks at process 0, of which process 1 gets one. -/
def sharingRun : List Action :=
  [⟨0, .emplace ⟨1⟩⟩, ⟨0, .emplace ⟨2⟩⟩, ⟨0, .emplace ⟨3⟩⟩, ⟨0, .emplace ⟨4⟩⟩, ⟨0, .emplace ⟨5⟩⟩,
    ⟨0, .emplace ⟨6⟩⟩,
    ⟨1, .startWorker⟩, ⟨1, .worker⟩, ⟨1, .wakeUp [0, 1]⟩, ⟨1, .receiver⟩, ⟨0, .acceptRequest 0⟩,
      ⟨0, .sender⟩,
    ⟨0, .sender⟩]

theorem tasks_conserved_iff_sharingRun :
    ∃ w, run World.step (.initial 2) sharingRun = some w ∧ w.tasks = w.generated ∧ w.generated.card = 6 := by
  have hrun : run World.step (.initial 2) sharingRun = some _ := rfl
  have henough : EveryStep World.step EnoughLeft (.initial 2) sharingRun := by decide +kernel
  exact ⟨_, hrun, (tasks_conserved_iff 2 sharingRun _ hrun).mpr henough, by decide +kernel⟩

/-- One task at process 0, which process 1 asks for. -/
def droppingRun : List Action :=
  [⟨0, .emplace ⟨1⟩⟩, ⟨1, .startWorker⟩, ⟨1, .worker⟩, ⟨1, .wakeUp [0, 1]⟩, ⟨1, .receiver⟩,
    ⟨0, .acceptRequest 0⟩, ⟨0, .sender⟩, ⟨0, .sender⟩]

/-- The sender takes the only task out of the queue, finds too few tasks left and forgets the one
    that it has. -/
theorem shared_task_dropped :
    ∃ w, run World.step (.initial 2) droppingRun = some w ∧ w.generated = {⟨1⟩} ∧ w.tasks = 0 :=
  ⟨_, rfl, by decide +kernel, by decide +kernel⟩

theorem executed_le_tasks (procs : List Process) :
    (↑(procs.flatMap Process.executed) : Multiset Task) ≤ (procs.map Process.tasks).sum := by
  induction procs with
  | nil => exact le_rfl
  | cons p procs ih =>
    rw [flatMap_cons, map_cons, sum_cons, ← Multiset.coe_add]
    exact add_le_add (Multiset.le_add_left _ _) ih

/-- Whatever is dropped on the way, no task is executed more often, over all processes, than it was
    generated. -/
theorem executed_le_generated (procCount : Nat) (actions : List Action) (w : World)
    (hrun : run World.step (.initial procCount) actions = some w) :
    ↑(w.procs.flatMap Process.executed) ≤ w.generated := by
  have hbalance := run_balance step_balance hrun
  rw [initial_balanced, add_comm, add_left_cancel_iff] at hbalance
  rw [← hbalance]
  exact (executed_le_tasks w.procs).trans ((Multiset.le_add_right _ _).trans (Multiset.le_add_right _ _))

/-- Process 1 executes the task that it has got; the next one is dropped. -/
theorem executed_le_generated_sharingRun :
    ∃ w, run World.step (.initial 2)
      (sharingRun ++ [⟨0, .sender⟩, ⟨0, .sender⟩, ⟨0, .sender⟩, ⟨1, .receiveTasks 0⟩,
        ⟨1, .receiver⟩, ⟨1, .worker⟩, ⟨1, .worker⟩]) = some w ∧ w.procs.map Process.executed = [[], [⟨1⟩]] ∧
      ↑(w.procs.flatMap Process.executed) ≤ w.generated := by
  have hrun : run World.step (.initial 2) (sharingRun ++ [⟨0, .sender⟩, ⟨0, .sender⟩, ⟨0, .sender⟩,
    ⟨1, .receiveTasks 0⟩, ⟨1, .receiver⟩, ⟨1, .worker⟩, ⟨1, .worker⟩]) = some _ := rfl
  exact ⟨_, hrun, by decide +kernel, executed_le_generated 2 _ _ hrun⟩

end NsuLabs.LoadBalancer

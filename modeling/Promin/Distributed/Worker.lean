import Promin.Distributed.StepQueue

/-!
# The step worker

`DefaultWorker`: one claim loop takes step tasks from the queue and launches each of
them; an execution runs one attempt (the step's middleware and handler, under the
step's timeout) and settles the task under its claim.  `active` is the worker's only
account of what it runs: the free slots of a claim, the wait of `stop` and the tasks
given back by a timed `stop` are all read off it, and its keys are task ids.

An operation is what happens between two awaits: a call on the queue, one verdict of
`taskFilter`, the launch of a batch, one step of an execution, of the loop or of a
`stop` call, or a call somebody else makes on the queue.  A list of operations is an
interleaving.  The worker reads the queue's clock.

`wake` and `backlogLikely` only decide how soon the loop ticks again, which here may be
at any time; the worker registry and the hooks after a settle change nothing the worker
reads.
-/

namespace Promin.Distributed

structure WorkerConfig where
  workerId : String
  /-- `registry.list()`: the steps the worker hosts. -/
  registry : List String
  capabilities : List String := []
  concurrency : Nat := 1
  supportedVersions : Option (List String) := none

/-- What one attempt produced, before the task is settled. -/
inductive StepOutcome where
  | completed (value : JsValue) (durationMs : Int)
  | failed (error : String) (errorTag : Option String) (durationMs : Int)
  deriving DecidableEq

/-- How the code of an attempt ended. -/
inductive HandlerResult where
  | returned (value : JsValue)
  | threw (error : String) (errorTag : Option String)

inductive ExecutionPhase where
  /-- Launched; the `beforeStep` hook has not returned. -/
  | launched
  /-- The outcome of the handler is awaited. -/
  | handling
  | decided (outcome : StepOutcome)
  /-- The task is settled, or the outcome dropped. -/
  | settled
  /-- The execution gave up its slot. -/
  | finished
  deriving DecidableEq

structure Execution where
  task : StepTask
  startTime : Int
  phase : ExecutionPhase := .launched
  /-- The task's controller was aborted: its claim is lost or was given back. -/
  aborted : Bool := false
  /-- The handler is running. It may outlive the attempt that timed out. -/
  handlerRunning : Bool := false

inductive ClaimLoop where
  /-- Not started, or exited. -/
  | stopped
  /-- Between two iterations. -/
  | waiting
  /-- A batch was claimed: `taskFilter` has yet to see `todo`. -/
  | filtering (todo accepted : List StepTask)
  deriving DecidableEq

inductive StopPhase where
  | awaitingLoop
  | draining
  | awaitingIdle
  | deregistering
  | resolved
  deriving DecidableEq

structure StopCall where
  timeoutMs : Option Int
  phase : StopPhase

structure DefaultWorker where
  queue : InMemoryStepQueue
  /-- Running tasks, by task id, with the number of the execution. -/
  active : JsMap String Nat
  /-- Every execution so far, in launch order. -/
  executions : List Execution
  loop : ClaimLoop
  /-- The loop was asked to exit. -/
  stopping : Bool
  stops : List StopCall

/-- What `taskFilter` does with a task. Without a filter every task is accepted. -/
inductive FilterVerdict where
  | accepts
  | rejects
  | throws

/-- One operation. -/
inductive WorkerOp where
  /-- A call somebody else makes on the queue, or time passing. -/
  | queue (o : StepQueueOp)
  | start
  | claimOnce
  | applyTaskFilter (verdict : FilterVerdict)
  | launch
  | exitLoop
  /-- `beforeStep` returned, or threw. -/
  | runHandler (i : Nat) (hookError : Option String)
  | handlerEnds (i : Nat) (result : HandlerResult)
  /-- The step's `timeoutMs` ran out. -/
  | attemptTimesOut (i : Nat)
  | heartbeatTask (i : Nat)
  | commit (i : Nat)
  | finish (i : Nat)
  | stop (timeoutMs : Option Int)
  | drained (k : Nat)
  | stopTimesOut (k : Nat)
  | deregistered (k : Nat)

/-- What an operation answers. -/
inductive WorkerAnswer where
  | none
  /-- The queue handed out these tasks. -/
  | claimed (tasks : List StepTask)
  /-- A task the filter rejected was given back. -/
  | released (task : StepTask)
  /-- A `stop` call resolved. -/
  | stopped (timeoutMs : Option Int)
  deriving DecidableEq

namespace DefaultWorker

def new (queue : InMemoryStepQueueConfig) : DefaultWorker where
  queue := .new queue
  active := JsMap.empty
  executions := []
  loop := .stopped
  stopping := false
  stops := []

variable (w : DefaultWorker)

def updateExecution (i : Nat) (f : Execution → Execution) : DefaultWorker :=
  { w with executions := w.executions.modify i f }

/-! ## The claim loop -/

/-- `start`: a running loop goes on as it is. -/
def start : DefaultWorker :=
  if w.loop = .stopped then { w with loop := .waiting, stopping := false } else w

/-- Slots no active task takes. -/
def free (config : WorkerConfig) (w : DefaultWorker) : Int := config.concurrency - w.active.size

/-- What the worker asks the queue for. Routing is pushed into the claim: the queue only
    hands out tasks for steps this worker hosts. -/
def claimParams (config : WorkerConfig) (w : DefaultWorker) : StepQueueClaimParams where
  workerId := config.workerId
  limit := w.free config
  capabilities := some config.capabilities
  stepNames := some config.registry
  versions := config.supportedVersions

def claimOnce (config : WorkerConfig) (w : DefaultWorker) : DefaultWorker × WorkerAnswer :=
  if w.loop = .waiting ∧ w.stopping = false then
    if w.free config ≤ 0 then (w, .none)
    else
      let (queue, claimed) := w.queue.claim (w.claimParams config)
      ({ w with queue := queue, loop := .filtering claimed [] }, .claimed claimed)
  else (w, .none)

/-- Keep the next task of the batch, or give it back to the queue. -/
def applyTaskFilter (verdict : FilterVerdict) : DefaultWorker × WorkerAnswer :=
  match w.loop with
  | .filtering (task :: todo) accepted =>
    match verdict with
    | .accepts => ({ w with loop := .filtering todo (accepted ++ [task]) }, .none)
    | .rejects =>
      ({ w with
          queue := (w.queue.release task.id (task.claimToken.getD "")).1
          loop := .filtering todo accepted }, .released task)
    -- The throw leaves `claimOnce`: the loop reports a failed claim and goes on.
    | .throws => ({ w with loop := .waiting }, .none)
  | _ => (w, .none)

def launch (task : StepTask) : DefaultWorker :=
  { w with
    active := w.active.set task.id w.executions.length
    executions := w.executions ++ [{ task := task, startTime := w.queue.now }] }

def launchAccepted : DefaultWorker :=
  match w.loop with
  | .filtering [] accepted => { accepted.foldl launch w with loop := .waiting }
  | _ => w

def exitLoop : DefaultWorker :=
  if w.loop = .waiting ∧ w.stopping = true then
    { w with
      loop := .stopped
      stops := w.stops.map fun call =>
        if call.phase = .awaitingLoop then { call with phase := .draining } else call }
  else w

/-! ## Executing a task -/

def elapsed (e : Execution) : Int := w.queue.now - e.startTime

/-- The registry is asked for the step's handler, and the attempt begins. -/
def begun (config : WorkerConfig) (w : DefaultWorker) (hookError : Option String)
    (e : Execution) : Execution :=
  if e.phase = .launched then
    if !config.registry.contains e.task.stepName then
      let error := "Step \"" ++ e.task.stepName ++ "\" not found in registry. Available: " ++
        ", ".intercalate config.registry
      { e with phase := .decided (.failed error none (w.elapsed e)) }
    else match hookError with
      | some error => { e with phase := .decided (.failed error none (w.elapsed e)) }
      | none => { e with phase := .handling, handlerRunning := true }
  else e

def runHandler (config : WorkerConfig) (w : DefaultWorker) (i : Nat) (hookError : Option String) :
    DefaultWorker :=
  w.updateExecution i (w.begun config hookError)

def ended (result : HandlerResult) (e : Execution) : Execution :=
  if e.handlerRunning then
    let outcome : StepOutcome := match result with
      | .returned value => .completed value (w.elapsed e)
      | .threw error errorTag => .failed error errorTag (w.elapsed e)
    { e with
      handlerRunning := false
      phase := if e.phase = .handling then .decided outcome else e.phase }
  else e

def handlerEnds (i : Nat) (result : HandlerResult) : DefaultWorker :=
  w.updateExecution i (w.ended result)

/-- The error of an attempt that timed out. -/
def timeoutMessage (stepName : String) (timeoutMs : Int) : String :=
  "Step \"" ++ stepName ++ "\" timed out after " ++ toString timeoutMs ++ "ms"

/-- The attempt's timer wins the race. The handler is told by its signal, and runs on. -/
def timedOut (e : Execution) : Execution :=
  match e.task.timeoutMs with
  | some timeoutMs =>
    if e.phase = .handling then
      { e with phase := .decided (.failed (timeoutMessage e.task.stepName timeoutMs)
          (some "StepTimeoutError") (w.elapsed e)) }
    else e
  | none => e

def attemptTimesOut (i : Nat) : DefaultWorker :=
  w.updateExecution i w.timedOut

/-- Extend the task's lease; a claim that is gone aborts the handler. -/
def heartbeatTask (i : Nat) : DefaultWorker :=
  match w.executions[i]? with
  | none => w
  | some e =>
    if e.aborted ∨ e.phase = .finished then w
    else
      let (queue, held) := w.queue.heartbeat e.task.id e.task.claimToken
      { w with queue := queue }.updateExecution i fun e => { e with aborted := !held }

/-- Settle the task with its outcome, unless its claim is known to be gone. -/
def commit (i : Nat) : DefaultWorker :=
  match w.executions[i]? with
  | none => w
  | some e =>
    match e.phase with
    | .decided outcome =>
      let queue :=
        if e.aborted then w.queue
        else match e.task.claimToken, outcome with
          -- Claimed without a token: reported, and left to be redelivered.
          | none, _ => w.queue
          | some token, .completed value durationMs =>
            (w.queue.complete
              { taskId := e.task.id, claimToken := some token
                result := value, durationMs := durationMs }).1
          | some token, .failed error errorTag durationMs =>
            (w.queue.fail
              { taskId := e.task.id, claimToken := some token
                error := error, errorTag := errorTag, durationMs := durationMs }).1
      { w with queue := queue }.updateExecution i fun e => { e with phase := .settled }
    | _ => w

/-- Resolve the waits of `stop` when nothing is active. -/
def resolveIdle : DefaultWorker :=
  if w.active.size = 0 then
    { w with
      stops := w.stops.map fun call =>
        if call.phase = .awaitingIdle then { call with phase := .deregistering } else call }
  else w

/-- The end of `launch`: give up the slot. -/
def finish (i : Nat) : DefaultWorker :=
  match w.executions[i]? with
  | none => w
  | some e =>
    if e.phase = .settled then
      ({ w with active := w.active.delete e.task.id }.updateExecution i fun e =>
        { e with phase := .finished }).resolveIdle
    else w

/-! ## Stopping -/

/-- `stop`, up to its wait for the loop. -/
def stop (timeoutMs : Option Int) : DefaultWorker :=
  let phase := if w.loop = .stopped then .draining else .awaitingLoop
  { w with stopping := true, stops := w.stops ++ [{ timeoutMs := timeoutMs, phase := phase }] }

def toStopPhase (k : Nat) (phase : StopPhase) : DefaultWorker :=
  { w with stops := w.stops.modify k fun call => { call with phase := phase } }

def drained (k : Nat) : DefaultWorker :=
  match w.stops[k]? with
  | some call =>
    if call.phase = .draining then
      w.toStopPhase k (if w.active.size > 0 then .awaitingIdle else .deregistering)
    else w
  | none => w

/-- Abort one execution and give its task back. -/
def releaseExecution (i : Nat) : DefaultWorker :=
  match w.executions[i]? with
  | none => w
  | some e =>
    { w with
      queue := (w.queue.release e.task.id (e.task.claimToken.getD "")).1 }.updateExecution i
        fun e => { e with aborted := true }

/-- Give every task still running back to the queue. -/
def releaseUnfinished : DefaultWorker :=
  w.active.values.foldl releaseExecution w

def stopTimesOut (k : Nat) : DefaultWorker :=
  match w.stops[k]? with
  | some call =>
    if call.phase = .awaitingIdle ∧ call.timeoutMs.isSome then
      w.releaseUnfinished.toStopPhase k .deregistering
    else w
  | none => w

def deregistered (k : Nat) : DefaultWorker × WorkerAnswer :=
  match w.stops[k]? with
  | some call =>
    if call.phase = .deregistering then (w.toStopPhase k .resolved, .stopped call.timeoutMs)
    else (w, .none)
  | none => (w, .none)

end DefaultWorker

/-! ## The worker as a machine -/

open DefaultWorker in
/-- A worker beside the other callers of its queue. -/
def worker (config : WorkerConfig) : Machine DefaultWorker WorkerOp WorkerAnswer where
  step w o := match o with
    | .queue o => ({ w with queue := stepQueue.next w.queue o }, .none)
    | .start => (w.start, .none)
    | .claimOnce => w.claimOnce config
    | .applyTaskFilter verdict => w.applyTaskFilter verdict
    | .launch => (w.launchAccepted, .none)
    | .exitLoop => (w.exitLoop, .none)
    | .runHandler i hookError => (w.runHandler config i hookError, .none)
    | .handlerEnds i result => (w.handlerEnds i result, .none)
    | .attemptTimesOut i => (w.attemptTimesOut i, .none)
    | .heartbeatTask i => (w.heartbeatTask i, .none)
    | .commit i => (w.commit i, .none)
    | .finish i => (w.finish i, .none)
    | .stop timeoutMs => (w.stop timeoutMs, .none)
    | .drained k => (w.drained k, .none)
    | .stopTimesOut k => (w.stopTimesOut k, .none)
    | .deregistered k => w.deregistered k

end Promin.Distributed

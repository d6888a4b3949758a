import Promin.Distributed.StepQueue
import Promin.Durable.Storage

/-!
# The step queue executor

`StepQueueExecutor` runs a step on the step queue: each attempt enqueues a task,
polls it until it is settled, consumes it and answers its outcome.
-/

namespace Promin.Distributed

open Durable (InMemoryWorkflowStorage StorageOp WorkflowStatus storage)

def defaultStepWaitTimeoutMs : Int := 24 * 60 * 60 * 1000

/-- Configuration of a `StepQueueExecutor`. The constructor rejects a wait that is not
    positive. -/
structure StepQueueExecutorConfig where
  pollIntervalMs : Int := 500
  staleTimeoutMs : Int := 30000
  /-- `none` stands for `Infinity`. -/
  stepWaitTimeoutMs : Option Int := some defaultStepWaitTimeoutMs
  positive : ∀ ms, stepWaitTimeoutMs = some ms → 0 < ms := by decide

/-- What the executor reads of the step's definition; retries aside. -/
structure StepDispatch where
  dependsOn : List String
  timeoutMs : Option Int := none

structure StepExecutionRequest where
  workflowId : String
  stepName : String
  input : JsValue
  /-- The run's results so far, by step name. -/
  prevResults : List (String × JsValue) := []
  attempt : Int
  definition : Option StepDispatch := none
  needs : Option (List String) := none
  priority : Option Int := none
  version : Option String := none
  concurrencyKey : Option String := none
  concurrencyScope : Option String := none
  concurrencyLimit : Option Int := none
  runtimeRun : Option Int := none

namespace StepExecutionRequest

def run (req : StepExecutionRequest) : Int := req.runtimeRun.getD 1

def dependsOn (req : StepExecutionRequest) : List String :=
  match req.definition with
  | some definition => definition.dependsOn
  | none => req.prevResults.map Prod.fst

def deps (req : StepExecutionRequest) : List (String × JsValue) :=
  (req.dependsOn.foldl (fun deps name =>
    deps.set name ((JsMap.lookup name req.prevResults).getD .undefined))
    (JsMap.empty : JsMap String JsValue)).entries

/-- The task an attempt enqueues. -/
def task (req : StepExecutionRequest) (attempt : Int) : StepQueueEnqueueParams where
  workflowId := req.workflowId
  stepName := req.stepName
  input := req.input
  deps := some req.deps
  dependsOn := some req.dependsOn
  timeoutMs := req.definition.bind (·.timeoutMs)
  needs := req.needs
  priority := req.priority
  version := req.version
  attempt := some attempt
  run := some req.run
  concurrencyKey := req.concurrencyKey
  concurrencyScope := req.concurrencyScope
  concurrencyLimit := req.concurrencyLimit

end StepExecutionRequest

inductive AttemptError where
  | untagged (message : String)
  | stepTimeout (timeoutMs : Int) (message : String)
  | queuedStep (message errorTag : String)
  deriving DecidableEq

def attemptError (message : String) (errorTag : Option String) (timeoutMs : Option Int) :
    AttemptError :=
  match errorTag, timeoutMs with
  | none, _ => .untagged message
  | some tag, some ms =>
    if tag = "StepTimeoutError" then .stepTimeout ms message else .queuedStep message tag
  | some tag, none => .queuedStep message tag

/-- Why an attempt stopped waiting. -/
inductive GaveUpReason where
  | timeout (timeoutMs : Int)
  | deleted
  | terminal (status : WorkflowStatus)
  deriving DecidableEq

def statusText : WorkflowStatus → String
  | .pending => "pending"
  | .running => "running"
  | .completed => "completed"
  | .failed => "failed"
  | .suspended => "suspended"
  | .compensating => "compensating"
  | .tripwire => "tripwire"

structure GaveUpError where
  workflowId : String
  stepName : String
  taskId : String
  reason : GaveUpReason
  deriving DecidableEq

def GaveUpError.message (e : GaveUpError) : String :=
  match e.reason with
  | .timeout ms =>
    "step \"" ++ e.stepName ++ "\" of workflow \"" ++ e.workflowId ++ "\" got no outcome within " ++
      toString ms ++ "ms of being queued (task " ++ e.taskId ++ ")"
  | .deleted =>
    "step \"" ++ e.stepName ++ "\" stopped waiting: workflow \"" ++ e.workflowId ++
      "\" was deleted"
  | .terminal status =>
    "step \"" ++ e.stepName ++ "\" stopped waiting: workflow \"" ++ e.workflowId ++ "\" is " ++
      statusText status

/-- How one queued attempt settled. -/
inductive AttemptOutcome where
  | completed (attempt : Int) (result : JsValue) (metadata : Option (List (String × JsValue)))
      (executorId : Option String)
  | failed (attempt : Int) (error : AttemptError) (typed : Bool)
      (metadata : Option (List (String × JsValue))) (executorId : Option String)
      (durationMs : Option Int)
  | gaveUp (error : GaveUpError)
  deriving DecidableEq

/-- The outcome a settled task stands for. -/
def taskOutcome (req : StepExecutionRequest) (task : MutableTask) : AttemptOutcome :=
  if task.status = .completed then
    .completed task.attempt task.result task.stepMetadata task.claimedBy
  else
    .failed task.attempt
      (attemptError (task.error.getD "step task failed") task.errorTag
        (req.definition.bind (·.timeoutMs)))
      task.errorTag.isSome task.stepMetadata task.claimedBy task.durationMs

/-! ## One attempt -/

/-- What an attempt is about to do. -/
inductive AttemptPhase where
  /-- The first `enqueue`. -/
  | enqueueing
  /-- The next poll. -/
  | waiting
  /-- `get`. -/
  | reading
  /-- `consume` of another run's task. -/
  | discarding
  /-- `enqueue` after that. -/
  | dispatching
  /-- `consume` of the task it read. -/
  | taking (task : MutableTask)
  /-- `loadWorkflow`. -/
  | checking
  /-- `fail`, the time being up. -/
  | failing
  /-- `consume` of the failure it has written. -/
  | clearing
  | answered (outcome : AttemptOutcome)

structure StepAttempt where
  config : StepQueueExecutorConfig
  req : StepExecutionRequest
  attempt : Int
  phase : AttemptPhase
  taskId : String
  /-- `none` stands for `Infinity`. -/
  deadline : Option Int
  polls : Int

namespace StepAttempt

def start (config : StepQueueExecutorConfig) (req : StepExecutionRequest) (attempt : Int) :
    StepAttempt where
  config := config
  req := req
  attempt := attempt
  phase := .enqueueing
  taskId := ""
  deadline := none
  polls := -1

/-- What `runAttempt` answered, when it is over. -/
def outcome (a : StepAttempt) : Option AttemptOutcome :=
  match a.phase with
  | .answered outcome => some outcome
  | _ => none

variable (a : StepAttempt)

/-- `Math.max(1, Math.ceil(staleTimeoutMs / pollIntervalMs))`; a division by zero gives a number
    no poll count is a multiple of. -/
def requeueEveryNPolls : Option Int :=
  if a.config.pollIntervalMs = 0 then none
  else some (max 1 (-((-a.config.staleTimeoutMs).fdiv a.config.pollIntervalMs)))

def sweeps (polls : Int) : Bool :=
  match a.requeueEveryNPolls with
  | some n => decide (polls % n = 0)
  | none => false

def gaveUp (reason : GaveUpReason) : AttemptPhase :=
  .answered (.gaveUp ⟨a.req.workflowId, a.req.stepName, a.taskId, reason⟩)

def call : Option StepQueueOp :=
  match a.phase with
  | .enqueueing => some (.enqueue (a.req.task a.attempt))
  | .waiting =>
    if 0 < a.polls + 1 ∧ a.sweeps (a.polls + 1) then
      some (.requeueStuck { mode := .stale a.config.staleTimeoutMs })
    else none
  | .reading => none
  | .discarding => some (.consume a.taskId)
  | .dispatching => some (.enqueue (a.req.task a.attempt))
  | .taking _ => some (.consume a.taskId)
  | .checking => none
  | .failing => some (.fail {
      taskId := a.taskId, claimToken := none, durationMs := 0
      error := GaveUpError.message ⟨a.req.workflowId, a.req.stepName, a.taskId,
        .timeout (a.config.stepWaitTimeoutMs.getD 0)⟩ })
  | .clearing => some (.consume a.taskId)
  | .answered _ => none

/-- How it goes on when the call was made: from the queue before the call, its answer, and the
    stored run. -/
def goOn (q : InMemoryStepQueue) (answer : StepQueueAnswer) (state : Option Durable.MutableWorkflow)
    : StepAttempt :=
  match a.phase, answer with
  | .enqueueing, .taskId id =>
    { a with
      phase := .waiting, taskId := id
      deadline := a.config.stepWaitTimeoutMs.map (q.now + ·) }
  | .waiting, _ =>
    { a with
      polls := a.polls + 1
      phase := if a.polls + 1 = 0 then .waiting else .reading }
  | .reading, _ =>
    match q.tasks.get a.taskId with
    | none => { a with phase := .checking }
    | some task =>
      if task.status.settled then
        -- An earlier run's leftover: not this run's outcome.
        if task.run ≠ a.req.run then { a with phase := .discarding }
        else { a with phase := .taking task }
      else { a with phase := .checking }
  | .discarding, _ => { a with phase := .dispatching }
  | .dispatching, .taskId id => { a with phase := .waiting, taskId := id }
  | .taking task, _ => { a with phase := .answered (taskOutcome a.req task) }
  | .checking, _ =>
    match state with
    | none => { a with phase := a.gaveUp .deleted }
    | some wf =>
      if wf.status.isTerminal then { a with phase := a.gaveUp (.terminal wf.status) }
      else if a.deadline.any fun deadline => decide (deadline ≤ q.now) then
        { a with phase := .failing }
      else { a with phase := .waiting }
  | .failing, .done true => { a with phase := .clearing }
  | .failing, _ =>
    { a with phase := a.gaveUp (.timeout (a.config.stepWaitTimeoutMs.getD 0)) }
  | .clearing, _ =>
    { a with phase := a.gaveUp (.timeout (a.config.stepWaitTimeoutMs.getD 0)) }
  | _, _ => a

/-- A call of a poll threw: the poll is tried again. -/
def backOff : StepAttempt :=
  match a.phase with
  | .enqueueing => a
  | .answered _ => a
  | .waiting => if a.call.isSome then { a with polls := a.polls + 1 } else a
  | _ => { a with phase := .waiting }

/-- The next attempt of the step after a typed failure; an adopted task carries its own attempt
    number, and counting goes on from it. -/
def retry : StepAttempt :=
  match a.phase with
  | .answered (.failed attempt _ true _ _ _) => start a.config a.req (attempt + 1)
  | _ => a

end StepAttempt

/-! ## The system -/

structure StepQueueSystem where
  queue : InMemoryStepQueue
  storage : InMemoryWorkflowStorage
  attempts : List StepAttempt

/-- What moves attempts, workers or the storage on. -/
inductive StepQueueEvent where
  /-- A worker, a sweep, a scanner or another caller of the queue; or time passing. -/
  | queue (o : StepQueueOp)
  | storage (o : StorageOp)
  | executeStep (config : StepQueueExecutorConfig) (req : StepExecutionRequest)
  | step (i : Nat)
  /-- The call the attempt makes next throws. -/
  | throws (i : Nat)
  /-- The step's policy retries the attempt's failure. -/
  | retry (i : Nat)

namespace StepQueueSystem

def new (config : InMemoryStepQueueConfig) (storage : InMemoryWorkflowStorage) :
    StepQueueSystem where
  queue := .new config
  storage := storage
  attempts := []

def queueCall (s : StepQueueSystem) : StepQueueEvent → Option StepQueueOp
  | .queue o => some o
  | .storage _ => none
  | .executeStep _ _ => none
  | .step i => (s.attempts[i]?).bind StepAttempt.call
  | .throws _ => none
  | .retry _ => none

def nextAttempts (s : StepQueueSystem) : StepQueueEvent → List StepAttempt
  | .queue _ => s.attempts
  | .storage _ => s.attempts
  | .executeStep config req => s.attempts ++ [.start config req req.attempt]
  | .step i =>
    match s.attempts[i]? with
    | none => s.attempts
    | some a =>
      let answer := match a.call with
        | some o => stepQueue.out s.queue o
        | none => .none
      s.attempts.set i (a.goOn s.queue answer (s.storage.workflows.get a.req.workflowId))
  | .throws i =>
    match s.attempts[i]? with
    | none => s.attempts
    | some a => s.attempts.set i a.backOff
  | .retry i =>
    match s.attempts[i]? with
    | none => s.attempts
    | some a => s.attempts.set i a.retry

end StepQueueSystem

/-- Attempts at steps beside the queue and the storage. -/
def stepQueueSystem : Machine StepQueueSystem StepQueueEvent Unit where
  step s e :=
    ({ queue := match s.queueCall e with
        | some o => stepQueue.next s.queue o
        | none => s.queue
       storage := match e with
        | .storage o => storage.next s.storage o
        | _ => s.storage
       attempts := s.nextAttempts e }, ())

end Promin.Distributed

import Promin.ForStd.JsMap
import Promin.Shared.JsValue

/-!
# Run and step rows

The state types of a durable run: the run row with its step rows, step attempts,
delivered signals and the events a run emits.  Dates are epoch milliseconds.
-/

namespace Promin.Durable

inductive WorkflowStatus where
  | pending
  | running
  | completed
  | failed
  | suspended
  | compensating
  | tripwire
  deriving DecidableEq

def WorkflowStatus.isTerminal : WorkflowStatus → Bool
  | .completed => true
  | .failed => true
  | .tripwire => true
  | .pending => false
  | .running => false
  | .suspended => false
  | .compensating => false

def cancelledErrorTag : String := "WorkflowCancelledError"

def cancelledError : String := "Cancelled"

inductive StepStatus where
  | pending
  | running
  | completed
  | failed
  | skipped
  | sleeping
  | waitingForSignal
  | compensated
  | compensationFailed
  deriving DecidableEq

inductive StepType where
  | single
  | map
  | sleep
  | signal
  deriving DecidableEq

inductive StepCompensationStatus where
  | pending
  | compensated
  | compensationFailed
  deriving DecidableEq

inductive RunSource where
  | manual
  | schedule
  | api
  | webhook
  | parent
  | agent
  deriving DecidableEq

/-- How the results of a step are stored. -/
structure Codec (α : Type) where
  encode : α → JsValue
  decode : JsValue → α

/-- What is stored decodes to what was encoded. -/
def Codec.Lossless {α : Type} (c : Codec α) : Prop := ∀ a, c.decode (c.encode a) = a

/-- Members of a JavaScript object used as a record. -/
abbrev Record := List (String × JsValue)

structure StepTaskState where
  taskIndex : Int
  status : StepStatus
  result : Option JsValue := none
  error : Option String := none
  startedAt : Option Int
  completedAt : Option Int
  attempt : Int
  deriving DecidableEq

structure StepState where
  stepName : String
  run : Int
  status : StepStatus
  dependsOn : List String
  stepType : StepType
  result : Option JsValue := none
  error : Option String := none
  errorTag : Option String := none
  startedAt : Option Int := none
  completedAt : Option Int := none
  durationMs : Option Int := none
  attempt : Int
  tasks : Option (List StepTaskState) := none
  wakeAt : Option Int := none
  signalName : Option String := none
  signalTimeoutAt : Option Int := none
  signalJsonSchema : Option JsValue := none
  compensationStatus : Option StepCompensationStatus := none
  compensationError : Option String := none
  compensatedAt : Option Int := none
  metadata : Option Record := none
  deriving DecidableEq

def withoutCompensationLedger (step : StepState) : StepState :=
  { step with compensationStatus := none, compensationError := none, compensatedAt := none }

/-- The run as `loadWorkflow` returns it. -/
structure WorkflowState where
  workflowId : String
  workflowName : String
  workflowType : Option String
  parentWorkflowId : Option String
  ns : Option String
  status : WorkflowStatus
  version : Option String
  run : Int
  input : JsValue
  result : Option JsValue := none
  error : Option String := none
  errorTag : Option String := none
  tripwire : Option JsValue := none
  runSource : Option RunSource
  runSourceId : Option String
  metadata : Option Record
  steps : JsMap String StepState
  createdAt : Int
  startedAt : Option Int := none
  updatedAt : Int
  completedAt : Option Int := none
  deriving DecidableEq

/-- The stored run row: the run plus its claim on an idempotency key. The copy-on-write
    bookkeeping of task arrays (`ownedTasks`, `handedOut`) is that of `RunRecord`. -/
structure MutableWorkflow extends WorkflowState where
  idempotencyKey : Option String
  idempotencyExpiresAt : Option Int
  deriving DecidableEq

structure WorkflowStatusSnapshot where
  status : WorkflowStatus
  error : Option String
  errorTag : Option String
  deriving DecidableEq

def statusSnapshot (wf : MutableWorkflow) : WorkflowStatusSnapshot where
  status := wf.status
  error := wf.error
  errorTag := wf.errorTag

/-- A run-history row. -/
structure WorkflowRunSummary where
  run : Int
  version : Option String
  status : WorkflowStatus
  result : Option JsValue
  error : Option String
  tripwire : Option JsValue
  steps : JsMap String StepState
  createdAt : Int
  startedAt : Option Int
  completedAt : Option Int
  deriving DecidableEq

def currentRunSummary (wf : MutableWorkflow) : WorkflowRunSummary where
  run := wf.run
  version := wf.version
  status := wf.status
  result := wf.result
  error := wf.error
  tripwire := wf.tripwire
  steps := wf.steps
  createdAt := wf.createdAt
  startedAt := wf.startedAt
  completedAt := wf.completedAt

structure SignalState where
  signalName : String
  payload : JsValue
  deliveredAt : Int
  deriving DecidableEq

inductive WorkflowRunEvent where
  | stepStarted (stepName : String) (at_ : Int)
  | stepCompleted (stepName : String) (result : JsValue) (durationMs : Int) (at_ : Int)
  | stepFailed (stepName : String) (error : String) (at_ : Int)
  | workflowCompleted (result : JsValue) (at_ : Int)
  | workflowFailed (error : String) (at_ : Int)
  | workflowTripwire (stepName : String) (reason : JsValue) (at_ : Int)
  deriving DecidableEq

inductive StepAttemptType where
  | execution
  | compensation
  deriving DecidableEq

def StepAttemptType.text : StepAttemptType → String
  | .execution => "execution"
  | .compensation => "compensation"

structure StepAttemptRecord where
  workflowId : String
  stepName : String
  attempt : Int
  type : StepAttemptType
  /-- `"completed"`, else `"failed"`. -/
  completed : Bool
  result : Option JsValue := none
  error : Option String := none
  durationMs : Int
  startedAt : Int
  completedAt : Int
  executorId : Option String := none
  deriving DecidableEq

/-- `applyMetadataPatch`: a shallow merge in which `null` removes the key. -/
def applyMetadataPatch (current : Option Record) (patch : Record) : Record :=
  patch.foldl (fun merged e =>
    match e.2 with
    | .null => merged.filter fun m => m.1 != e.1
    | _ => JsMap.upsert e.1 e.2 merged) (current.getD [])

def idempotencyIndexKey (ns : Option String) (workflowName idempotencyKey : String) : String :=
  let scope := match ns with
    | some name => JsValue.str name
    | none => JsValue.null
  (stringify (.arr [scope, .str workflowName, .str idempotencyKey])).getD "undefined"

end Promin.Durable

import Promin.Durable.Storage

/-!
# The recovery scans

The read-only scans a coordinator's scanners run over the storage: due timers,
delivered signals, waits on children, and runs nobody is driving.
-/

namespace Promin.Durable

inductive WakeupReason where
  | sleep
  | signalTimeout
  | signal
  deriving DecidableEq

structure WorkflowWakeup where
  workflowId : String
  workflowName : String
  version : Option String
  input : JsValue
  stepName : String
  reason : WakeupReason
  signalName : Option String := none
  signalPayload : Option JsValue := none
  deriving DecidableEq

structure OrphanedRun where
  workflowId : String
  workflowName : String
  version : Option String
  status : WorkflowStatus
  input : JsValue
  metadata : Option Record

structure ChildEndedWait where
  stepName : String
  signalName : String

structure ChildEndedWaits where
  workflowId : String
  waits : List ChildEndedWait

def childEndedSignalPrefix : String := "workflow.child-ended:"

def isChildEndedSignal (signalName : String) : Bool :=
  childEndedSignalPrefix.toList.isPrefixOf signalName.toList

def stepsByName (wf : MutableWorkflow) : List StepState :=
  wf.steps.values.insertionSort fun a b => a.stepName ≤ b.stepName

def toWakeup (wf : MutableWorkflow) (stepName : String) (reason : WakeupReason)
    (signalName : Option String) (signalPayload : Option JsValue) : WorkflowWakeup where
  workflowId := wf.workflowId
  workflowName := wf.workflowName
  version := wf.version
  input := wf.input
  stepName := stepName
  reason := reason
  signalName := signalName
  signalPayload := signalPayload

namespace InMemoryWorkflowStorage

variable (s : InMemoryWorkflowStorage)

/-- Whether the run is in the namespace the scans are scoped to. -/
def inScope (wf : MutableWorkflow) : Bool :=
  !(truthy s.ns && wf.ns != s.ns)

/-- The runs after the keyset cursor, in `workflowId` order, that pass `pick`, at most
    `limit`. -/
def scanWorkflows {α : Type} (s : InMemoryWorkflowStorage) (limit : Int)
    (afterWorkflowId : Option String) (pick : MutableWorkflow → Option α) : List α :=
  let ids := (s.workflows.keys.filter fun id =>
    (afterWorkflowId.map fun after => decide (after < id)).getD true).insertionSort
      fun a b => a ≤ b
  let rows := ids.filterMap fun id =>
    (s.workflows.get id).bind fun wf => if s.inScope wf then pick wf else none
  rows.take limit.toNat

/-- Whether the stored time has come. -/
def due (now : Int) (at_ : Option Int) : Bool := (at_.map fun t => decide (t ≤ now)).getD false

def timerOf (now : Int) (wf : MutableWorkflow) (step : StepState) : Option WorkflowWakeup :=
  if step.status = .sleeping ∧ due now step.wakeAt then
    some (toWakeup wf step.stepName .sleep none none)
  else if step.status = .waitingForSignal ∧ due now step.signalTimeoutAt then
    some (toWakeup wf step.stepName .signalTimeout step.signalName none)
  else none

def listDueTimers (now limit : Int) (afterWorkflowId : Option String) : List WorkflowWakeup :=
  s.scanWorkflows limit afterWorkflowId fun wf =>
    if wf.status ≠ .suspended then none else (stepsByName wf).findSome? (timerOf now wf)

def signalOf (delivered : List SignalState) (wf : MutableWorkflow) (step : StepState) :
    Option WorkflowWakeup :=
  match step.status, step.signalName with
  | .waitingForSignal, some name =>
    (delivered.find? fun d => d.signalName == name).map fun signal =>
      toWakeup wf step.stepName .signal (some name) (some signal.payload)
  | _, _ => none

def listSignalWakeups (limit : Int) (afterWorkflowId : Option String) : List WorkflowWakeup :=
  s.scanWorkflows limit afterWorkflowId fun wf =>
    if wf.status ≠ .suspended then none
    else (stepsByName wf).findSome? (signalOf ((s.signals.get wf.workflowId).getD []) wf)

def childWaitOf (delivered : List SignalState) (step : StepState) : Option ChildEndedWait :=
  match step.status, step.signalName with
  | .waitingForSignal, some name =>
    if isChildEndedSignal name && !delivered.any fun d => d.signalName == name then
      some ⟨step.stepName, name⟩
    else none
  | _, _ => none

def listChildEndedWaits (limit : Int) (afterWorkflowId : Option String) : List ChildEndedWaits :=
  s.scanWorkflows limit afterWorkflowId fun wf =>
    if wf.status ≠ .suspended then none
    else
      let waits := (stepsByName wf).filterMap
        (childWaitOf ((s.signals.get wf.workflowId).getD []))
      if waits.isEmpty then none else some ⟨wf.workflowId, waits⟩

def listOrphanedRuns (now updatedBefore limit : Int) (afterWorkflowId : Option String) :
    List OrphanedRun :=
  s.scanWorkflows limit afterWorkflowId fun wf =>
    if wf.status ≠ .pending ∧ wf.status ≠ .running ∧ wf.status ≠ .compensating then none
    else if wf.updatedAt ≥ updatedBefore then none
    else if s.leases.isHeld wf.workflowId now then none
    else some {
      workflowId := wf.workflowId, workflowName := wf.workflowName, version := wf.version
      status := wf.status, input := wf.input, metadata := wf.metadata }

end InMemoryWorkflowStorage

end Promin.Durable

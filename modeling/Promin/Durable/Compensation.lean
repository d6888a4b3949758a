import Promin.Durable.Driving

/-!
# Compensation

The saga rollback of a run: its completed steps that carry a `compensate`
function are reversed, dependents first, with one attempt row per try and one
ledger entry per step.
-/

namespace Promin.Durable

/-- A step as compensation sees it. -/
structure CompensatableStep where
  name : String
  /-- `codec.decode`, for a step with a codec. -/
  decode : Option (JsValue → Except Thrown JsValue) := none
  /-- Whether the step carries a `compensate` function. -/
  compensates : Bool := true

structure CompensationReport where
  compensated : List String
  failed : List (String × Thrown)
  deriving DecidableEq

def CompensationReport.add (report : CompensationReport) (stepName : String) :
    (failure : Option Thrown) → CompensationReport
  | some error => { report with failed := report.failed ++ [(stepName, error)] }
  | none => { report with compensated := report.compensated ++ [stepName] }

namespace Compensation

/-! ## The order -/

/-- A completed step. The number of its dependents is counted beside it. -/
structure Entry where
  step : CompensatableStep
  index : Nat
  /-- `none` is negative infinity. -/
  completedMs : Option Int

def completedEntries (steps : List CompensatableStep) (state : WorkflowState) :
    JsMap String Entry :=
  JsMap.collect (fun (step, index) =>
    match state.steps.get step.name with
    | none => none
    | some row =>
      if row.status ≠ .completed then none
      else some (step.name, ⟨step, index, row.completedAt⟩)) steps.zipIdx

def completedDeps (entries : JsMap String Entry) (node : DagNode) : List String :=
  node.dependsOn.filter fun d => d != node.name && entries.has d

def dependsOn (entries : JsMap String Entry) (dagNodes : List DagNode) :
    JsMap String (List String) :=
  JsMap.collect (fun node =>
    if !entries.has node.name then none
    else some (node.name, completedDeps entries node)) dagNodes

/-- How many completed steps depend on each step. -/
def dependents (entries : JsMap String Entry) (dagNodes : List DagNode) : String → Int :=
  dagNodes.foldl (fun count node =>
    if !entries.has node.name then count
    else (completedDeps entries node).foldl
      (fun count dep => Function.update count dep (count dep + 1)) count) fun _ => 0

/-- `a > b` for completion times. -/
def later : Option Int → Option Int → Bool
  | none, _ => false
  | some _, none => true
  | some a, some b => decide (a > b)

/-- Whether `a` is rolled back before `b` when both can be. -/
def before (entries : JsMap String Entry) (a b : String) : Bool :=
  match entries.get a, entries.get b with
  | some a, some b =>
    if a.completedMs ≠ b.completedMs then later a.completedMs b.completedMs
    else decide (a.index > b.index)
  | _, _ => false

/-- The completed steps in the order they come up for rollback. -/
def unwound (entries : JsMap String Entry) (dagNodes : List DagNode) : List String :=
  let count := dependents entries dagNodes
  Kahn.drain (fun name => ((dependsOn entries dagNodes).get name).getD [])
    (Kahn.chooseBest (before entries)) entries.size
    ⟨count, entries.keys.filter fun name => count name = 0⟩

/-- The completed steps with a `compensate` function, in the order they are rolled back. -/
def compensationOrder (steps : List CompensatableStep) (state : WorkflowState)
    (dagNodes : List DagNode) : List CompensatableStep :=
  let entries := completedEntries steps state
  ((unwound entries dagNodes).filterMap entries.get).map (·.step) |>.filter (·.compensates)

/-! ## The rollback -/

/-- What is the same for all calls that roll back one run. -/
structure Params where
  workflowId : String
  steps : List CompensatableStep
  dagNodes : List DagNode
  input : JsValue
  /-- `compensateConfig.retry.maxRetries`. -/
  maxRetries : Nat := 0

structure CompensateParams where
  result : JsValue
  input : JsValue
  workflowId : String

/-- One call, and what it finds outside the storage. -/
structure Call where
  guard_ : FenceGuard := none
  executorId : Option String := none
  resumed : Bool := false
  /-- The reason of the lock signal, if it is aborted when the step's turn comes. -/
  aborted : String → Option Thrown := fun _ => none
  /-- What each try of a step's `compensate` function throws, if it does. -/
  compensate : String → CompensateParams → Nat → Option Thrown := fun _ _ _ => none

inductive Event where
  /-- The step's `compensate` function was run. -/
  | ran (stepName : String) (params : CompensateParams)
  | recorded (stepName : String)

abbrev World := DriverWorld Event

variable (p : Params) (c : Call)

def loadWorkflow : Drive Event (Option WorkflowState) :=
  storageCall p.workflowId [] fun s =>
    (s, .ok ((s.workflows.get p.workflowId).map (·.toWorkflowState)))

def lastCompensationAttempt (stepName : String) : Drive Event Int :=
  storageCall p.workflowId [] fun s =>
    let rows := ((s.attempts.get p.workflowId).getD []).map (·.record)
    let attempts := if stepName != "" then rows.filter (·.stepName = stepName) else rows
    (s, .ok (attempts.foldl (fun last a =>
      if a.type = .compensation ∧ a.attempt > last then a.attempt else last) 0))

/-- The attempt number the tries of this call count from. -/
def firstAttempt (stepName : String) : Drive Event Int :=
  if c.resumed then lastCompensationAttempt p stepName else pure 0

/-- The time is read, then the step's `compensate` function is run. -/
def compensate (step : CompensatableStep) (result : JsValue) (retry : Nat) :
    Drive Event (Int × Option Thrown) :=
  let params : CompensateParams := ⟨result, p.input, p.workflowId⟩
  storageCall p.workflowId [.ran step.name params] fun s =>
    (s, .ok (s.now, c.compensate step.name params retry))

def saveAttempt (stepName : String) (attempt startedAt : Int) (error : Option Thrown) :
    Drive Event Unit :=
  checkpointWrite p.workflowId "saveStepAttempt" stepName <|
    storageCall p.workflowId [] fun s => s.saveStepAttempt {
      workflowId := p.workflowId, stepName := stepName, attempt := attempt
      type := .compensation, completed := error.isNone, error := error.map errorMessage
      durationMs := s.now - startedAt, startedAt := startedAt, completedAt := s.now
      executorId := c.executorId } c.guard_

def recordedError : Thrown → Option String
  | .undefined => none
  | error => some (errorMessage error)

/-- Enter the step in the ledger: failed with `error`, else compensated. -/
def record (stepName : String) (error : Option Thrown) : Drive Event Unit :=
  checkpointWrite p.workflowId "saveStepCompensation" stepName <|
    storageCall p.workflowId [.recorded stepName] fun s =>
      s.saveStepCompensation p.workflowId stepName
        (if error.isSome then .compensationFailed else .compensated)
        (error.bind recordedError) c.guard_

def tryCompensation (step : CompensatableStep) (result : JsValue) (firstAttempt : Int)
    (retry : Nat) : Drive Event Unit := do
  let (startedAt, failure) ← compensate p c step result retry
  let attempt := firstAttempt + retry + 1
  match failure with
  | some error =>
    saveAttempt p c step.name attempt startedAt (some error)
    throw error
  | none => saveAttempt p c step.name attempt startedAt none

def decodedResult (row : Option StepState) (step : CompensatableStep) : Except Thrown JsValue :=
  let stored := (row.bind (·.result)).getD .undefined
  match step.decode with
  | some decode => decode stored
  | none => .ok stored

def compensateStep (state : WorkflowState) (step : CompensatableStep) (firstAttempt : Int) :
    Drive Event Unit :=
  match decodedResult (state.steps.get step.name) step with
  | .error error => throw error
  | .ok result =>
    Prog.retry (fun error => !isAbandonRunExit error) (tryCompensation p c step result firstAttempt)
      0 p.maxRetries

def rollBack (state : WorkflowState) :
    List CompensatableStep → CompensationReport → Drive Event CompensationReport
  | [], report => pure report
  | step :: rest, report => do
    match c.aborted step.name with
    | some reason => throw reason
    | none =>
      let first ← firstAttempt p c step.name
      let failure ← tryCatch
        (do compensateStep p c state step first; pure none)
        (fun error => if isAbandonRunExit error then throw error else pure (some error))
      record p c step.name failure
      rollBack state rest (report.add step.name failure)

def isSettled (row : Option StepState) : Bool :=
  match row.bind (·.compensationStatus) with
  | some .compensated => true
  | some .compensationFailed => true
  | _ => false

def settledReport (state : WorkflowState) (order : List CompensatableStep) :
    CompensationReport where
  compensated := (order.filter fun step =>
    (state.steps.get step.name).bind (·.compensationStatus) = some .compensated).map (·.name)
  failed := order.filterMap fun step =>
    (state.steps.get step.name).bind fun row =>
      if row.compensationStatus = some .compensationFailed then
        some (step.name, .text (row.compensationError.getD "compensation failed"))
      else none

/-- Rolls back what is not settled, in compensation order. -/
def compensateWorkflow : Drive Event CompensationReport := do
  match ← loadWorkflow p with
  | none => pure ⟨[], []⟩
  | some state =>
    let order := compensationOrder p.steps state p.dagNodes
    rollBack p c state (order.filter fun step => !isSettled (state.steps.get step.name))
      (settledReport state order)

end Compensation

end Promin.Durable

import Promin.ForStd.Machine
import Promin.Durable.WorkflowState
import Promin.Durable.LeaseTable
import Promin.Durable.Journal
import Promin.Durable.SignalsAndStreams

/-!
# The in-memory workflow storage

`InMemoryWorkflowStorage`: the run rows and one module per store beside them.
-/

namespace Promin.Durable

open JsMap

/-- What a storage call throws. -/
inductive StorageError where
  | fence (e : FenceTokenMismatchError)
  | error (message : String)
  deriving DecidableEq

structure EmittedEvent where
  workflowId : String
  event : WorkflowRunEvent
  terminal : Bool
  deriving DecidableEq

/-- A stored step attempt, under the key it is upserted by. -/
structure AttemptRow where
  key : String
  run : Int
  record : StepAttemptRecord
  deriving DecidableEq

structure InMemoryWorkflowStorage where
  workflows : JsMap String MutableWorkflow
  leases : InMemoryLeaseTable
  journal : InMemoryJournal
  signalTokens : InMemorySignalTokens
  streams : InMemoryStreams
  events : List EmittedEvent
  signals : JsMap String (List SignalState)
  attempts : JsMap String (List AttemptRow)
  runHistory : JsMap String (List WorkflowRunSummary)
  /-- Workflow id by `idempotencyIndexKey`, for the run that last claimed the key. -/
  idempotencyIndex : JsMap String String
  /-- Child workflow ids by parent workflow id. -/
  children : JsMap String (List String)
  ns : Option String
  now : Int
  deriving DecidableEq

structure StorageConfig where
  ns : Option String := none
  instanceId : String
  /-- Reading of the clock when the storage is built. -/
  now : Int := 0

/-! ## Params -/

structure CreateWorkflowParams where
  workflowId : String
  workflowName : String
  input : JsValue
  workflowType : Option String := none
  parentWorkflowId : Option String := none
  ns : Option String := none
  metadata : Option Record := none
  version : Option String := none
  runSource : Option RunSource := none
  runSourceId : Option String := none
  idempotencyKey : Option String := none
  idempotencyExpiresAt : Option Int := none

structure StepResultRecord where
  workflowId : String
  stepName : String
  result : JsValue
  durationMs : Int
  startedAt : Int
  metadata : Option Record := none

structure StepFailureRecord where
  workflowId : String
  stepName : String
  error : String
  errorTag : Option String := none
  durationMs : Int
  startedAt : Int
  metadata : Option Record := none

inductive TaskOutcome where
  | completed (result : JsValue)
  | failed (error : String)

/-- The step fields a suspend writes over the row it builds. -/
structure StepUpdate where
  status : StepStatus
  stepType : Option StepType := none
  wakeAt : Option Int := none
  signalName : Option String := none
  signalTimeoutAt : Option Int := none
  signalJsonSchema : Option JsValue := none
  metadata : Option Record := none

inductive StepOutcome where
  | completed (result : JsValue)
  | failed (error : String) (errorTag : Option String)

structure StepCheckpoint where
  workflowId : String
  stepName : String
  attempts : List StepAttemptRecord
  outcome : StepOutcome
  durationMs : Int
  startedAt : Int
  metadata : Option Record := none

inductive PurgeWindow where
  | olderThan (ms : Int)
  | between (from_ to_ : Int)

namespace InMemoryWorkflowStorage

def new (config : StorageConfig) : InMemoryWorkflowStorage where
  workflows := empty
  leases := .new config.instanceId
  journal := .new
  signalTokens := .new
  streams := .new
  events := []
  signals := empty
  attempts := empty
  runHistory := empty
  idempotencyIndex := empty
  children := empty
  ns := config.ns
  now := config.now

variable (s : InMemoryWorkflowStorage)

def resolveNamespace (ns : Option String) : Option String :=
  ns.or s.ns

def emit (workflowId : String) (event : WorkflowRunEvent) (terminal : Bool) :
    InMemoryWorkflowStorage :=
  { s with events := s.events ++ [⟨workflowId, event, terminal⟩] }

def fenced {α : Type} (s : InMemoryWorkflowStorage) (workflowId : String) (guard_ : FenceGuard)
    (body : InMemoryWorkflowStorage × Except StorageError α) :
    InMemoryWorkflowStorage × Except StorageError α :=
  match s.leases.checkFence s.now workflowId guard_ with
  | .error e => (s, .error (.fence e))
  | .ok () => body

def fencedWrite (workflowId : String) (guard_ : FenceGuard) (body : InMemoryWorkflowStorage) :
    InMemoryWorkflowStorage × Except StorageError Unit :=
  s.fenced workflowId guard_ (body, .ok ())

def putRun (workflowId : String) (wf : MutableWorkflow) : InMemoryWorkflowStorage :=
  { s with workflows := s.workflows.set workflowId wf }

/-! ## Creating -/

def idempotencyClaim (ns : Option String) (workflowName idempotencyKey : String) (now : Int) :
    Option MutableWorkflow :=
  match (s.idempotencyIndex.get (idempotencyIndexKey ns workflowName idempotencyKey)).bind
      s.workflows.get with
  | none => none
  | some wf =>
    if wf.ns = ns ∧ wf.workflowName = workflowName ∧ wf.idempotencyKey = some idempotencyKey ∧
        (wf.idempotencyExpiresAt.map fun at_ => decide (at_ > now)) = some true then
      some wf
    else none

def findWorkflowByIdempotencyKey (ns : Option String) (workflowName idempotencyKey : String)
    (now : Int) : Option String :=
  (s.idempotencyClaim (s.resolveNamespace ns) workflowName idempotencyKey now).map (·.workflowId)

def newRun (p : CreateWorkflowParams) : MutableWorkflow where
  workflowId := p.workflowId
  workflowName := p.workflowName
  workflowType := p.workflowType
  parentWorkflowId := p.parentWorkflowId
  ns := s.resolveNamespace p.ns
  status := .pending
  version := p.version
  run := 1
  input := p.input
  metadata := p.metadata
  runSource := p.runSource
  runSourceId := p.runSourceId
  idempotencyKey := p.idempotencyKey
  idempotencyExpiresAt := p.idempotencyExpiresAt
  steps := empty
  createdAt := s.now
  updatedAt := s.now

/-- The unfenced body of `createWorkflow`: the row already there, or `none` when one was
    created. -/
def createRun (p : CreateWorkflowParams) : InMemoryWorkflowStorage × Option WorkflowState :=
  let claimed := if truthy p.idempotencyKey then
      s.idempotencyClaim (s.resolveNamespace p.ns) p.workflowName (p.idempotencyKey.getD "") s.now
    else none
  match claimed.or (s.workflows.get p.workflowId) with
  | some existing => (s, some existing.toWorkflowState)
  | none =>
    ({ s with
        idempotencyIndex := if truthy p.idempotencyKey then
            s.idempotencyIndex.set (idempotencyIndexKey (s.resolveNamespace p.ns) p.workflowName
              (p.idempotencyKey.getD "")) p.workflowId
          else s.idempotencyIndex
        children := match p.parentWorkflowId with
          | some parent =>
            s.children.set parent
              (InMemoryJournal.addKey ((s.children.get parent).getD []) p.workflowId)
          | none => s.children
        workflows := s.workflows.set p.workflowId (s.newRun p) }, none)

def createWorkflow (s : InMemoryWorkflowStorage) (p : CreateWorkflowParams)
    (guard_ : FenceGuard) : InMemoryWorkflowStorage × Except StorageError (Option WorkflowState) :=
  let body := ((s.createRun p).1, .ok (s.createRun p).2)
  if truthy guard_ then
    match p.parentWorkflowId with
    | none => (s, .error (.error "createWorkflow: a fenced create needs parentWorkflowId"))
    | some parent => s.fenced parent guard_ body
  else body

/-! ## Step rows -/

/-- Transition pending to running on first step activity. -/
def markRunning (wf : MutableWorkflow) : MutableWorkflow :=
  if wf.status = .pending then { wf with status := .running, startedAt := some s.now } else wf

def settledStep (wf : MutableWorkflow) (stepName : String) (status : StepStatus)
    (metadata : Option Record) (startedAt durationMs : Int) : StepState :=
  let existing := wf.steps.get stepName
  { stepName := stepName
    run := wf.run
    status := status
    dependsOn := (existing.map (·.dependsOn)).getD []
    stepType := (existing.map (·.stepType)).getD .single
    metadata := metadata.or (existing.bind (·.metadata))
    startedAt := some startedAt
    completedAt := some s.now
    durationMs := some durationMs
    attempt := (existing.map (·.attempt)).getD 0 + 1
    tasks := existing.bind (·.tasks) }

def putStep (wf : MutableWorkflow) (step : StepState) : MutableWorkflow :=
  { wf with steps := wf.steps.set step.stepName step, updatedAt := s.now }

/-- The unfenced body of `saveStepResult`. -/
def writeStepResult (r : StepResultRecord) : InMemoryWorkflowStorage :=
  match s.workflows.get r.workflowId with
  | none => s
  | some wf =>
    let wf := s.markRunning wf
    let step := { s.settledStep wf r.stepName .completed r.metadata r.startedAt r.durationMs with
      result := some r.result }
    (s.putRun r.workflowId (s.putStep wf step)).emit r.workflowId
      (.stepCompleted r.stepName r.result r.durationMs s.now) false

def saveStepResult (r : StepResultRecord) (guard_ : FenceGuard) :
    InMemoryWorkflowStorage × Except StorageError Unit :=
  s.fencedWrite r.workflowId guard_ (s.writeStepResult r)

def checkFences (s : InMemoryWorkflowStorage) (guard_ : FenceGuard) :
    List String → Except FenceTokenMismatchError Unit
  | [] => .ok ()
  | workflowId :: rest =>
    match s.leases.checkFence s.now workflowId guard_ with
    | .error e => .error e
    | .ok () => s.checkFences guard_ rest

def batchSaveStepResults (records : List StepResultRecord) (guard_ : FenceGuard) :
    InMemoryWorkflowStorage × Except StorageError Unit :=
  match s.checkFences guard_ (records.map (·.workflowId)) with
  | .error e => (s, .error (.fence e))
  | .ok () => (records.foldl writeStepResult s, .ok ())

/-- The unfenced body of `saveStepFailure`. -/
def writeStepFailure (r : StepFailureRecord) : InMemoryWorkflowStorage :=
  match s.workflows.get r.workflowId with
  | none => s
  | some wf =>
    let wf := s.markRunning wf
    let step := { s.settledStep wf r.stepName .failed r.metadata r.startedAt r.durationMs with
      error := some r.error, errorTag := r.errorTag }
    (s.putRun r.workflowId (s.putStep wf step)).emit r.workflowId
      (.stepFailed r.stepName r.error s.now) false

def saveStepFailure (r : StepFailureRecord) (guard_ : FenceGuard) :
    InMemoryWorkflowStorage × Except StorageError Unit :=
  s.fencedWrite r.workflowId guard_ (s.writeStepFailure r)

def writeTaskRow (wf : MutableWorkflow) (stepName : String) (taskIndex : Int)
    (outcome : TaskOutcome) : MutableWorkflow :=
  let existing := wf.steps.get stepName
  let tasks := (existing.bind (·.tasks)).getD []
  let prev := tasks.find? fun t => t.taskIndex == taskIndex
  let task : StepTaskState := {
    taskIndex := taskIndex
    status := match outcome with
      | .completed _ => .completed
      | .failed _ => .failed
    result := match outcome with
      | .completed result => some result
      | .failed _ => none
    error := match outcome with
      | .completed _ => none
      | .failed error => some error
    startedAt := (prev.bind (·.startedAt)).or (some s.now)
    completedAt := some s.now
    attempt := (prev.map (·.attempt)).getD 0 + 1 }
  let tasks := if prev.isSome then
      tasks.map fun t => if t.taskIndex == taskIndex then task else t
    else tasks ++ [task]
  let step := existing.getD {
    stepName := stepName, run := wf.run, status := .running, dependsOn := [], stepType := .map
    attempt := 1 }
  { wf with steps := wf.steps.set stepName { step with tasks := some tasks }, updatedAt := s.now }

def saveTask (workflowId stepName : String) (taskIndex : Int) (outcome : TaskOutcome)
    (guard_ : FenceGuard) : InMemoryWorkflowStorage × Except StorageError Unit :=
  s.fencedWrite workflowId guard_ <|
    match s.workflows.get workflowId with
    | none => s
    | some wf => s.putRun workflowId (s.writeTaskRow wf stepName taskIndex outcome)

/-! ## Ending a run -/

def endRun (workflowId : String) (guard_ : FenceGuard) (f : MutableWorkflow → MutableWorkflow)
    (event : MutableWorkflow → WorkflowRunEvent) :
    InMemoryWorkflowStorage × Except StorageError Unit :=
  s.fencedWrite workflowId guard_ <|
    match s.workflows.get workflowId with
    | none => s
    | some wf =>
      if wf.status.isTerminal then s
      else
        let wf := { f wf with completedAt := some s.now, updatedAt := s.now }
        (s.putRun workflowId wf).emit workflowId (event wf) true

def completeWorkflow (workflowId : String) (result : JsValue) (guard_ : FenceGuard) :
    InMemoryWorkflowStorage × Except StorageError Unit :=
  s.endRun workflowId guard_ (fun wf => { wf with status := .completed, result := some result })
    fun _ => .workflowCompleted result s.now

def failWorkflow (workflowId error : String) (errorTag : Option String) (guard_ : FenceGuard) :
    InMemoryWorkflowStorage × Except StorageError Unit :=
  s.endRun workflowId guard_
    (fun wf => { wf with status := .failed, error := some error, errorTag := errorTag })
    fun _ => .workflowFailed error s.now

def firedStepName (wf : MutableWorkflow) : String :=
  let fired := wf.steps.values.find? fun step =>
    ((step.metadata.getD []).lookup "tripwireFired") == some (.bool true)
  (fired.map (·.stepName)).getD "unknown"

def tripwireWorkflow (workflowId : String) (reason : JsValue) (guard_ : FenceGuard) :
    InMemoryWorkflowStorage × Except StorageError Unit :=
  s.endRun workflowId guard_
    (fun wf => { wf with status := .tripwire, tripwire := some reason })
    fun wf => .workflowTripwire (firedStepName wf) reason s.now

/-- The statuses `cancelWorkflow` and `beginCompensation` act on. -/
def cancellable (status : WorkflowStatus) : Bool :=
  match status with
  | .pending => true
  | .running => true
  | .suspended => true
  | .completed => false
  | .failed => false
  | .compensating => false
  | .tripwire => false

def cancelled (wf : MutableWorkflow) : MutableWorkflow :=
  { wf with
    status := .failed
    error := some cancelledError
    errorTag := some cancelledErrorTag
    completedAt := some s.now
    updatedAt := s.now }

/-- The unfenced body of `cancelWorkflow`. A cascade awaits between two children, so other
    calls may run there: that interleaving is the run with one cancel per descendant. Every
    level of the recursion ends one more run, so `fuel` above the number of runs is never
    used up. -/
def cancelRun (cascade : Bool) : Nat → InMemoryWorkflowStorage → String → InMemoryWorkflowStorage
  | 0, s, _ => s
  | fuel + 1, s, workflowId =>
    match s.workflows.get workflowId with
    | none => s
    | some wf =>
      if !cancellable wf.status then s
      else
        let s := (s.putRun workflowId (s.cancelled wf)).emit workflowId
          (.workflowFailed cancelledError s.now) true
        if cascade then
          ((s.children.get workflowId).getD []).foldl
            (fun s child => cancelRun cascade fuel s child) s
        else s

def cancelWorkflow (workflowId : String) (cascade : Bool) (guard_ : FenceGuard) :
    InMemoryWorkflowStorage × Except StorageError Unit :=
  s.fencedWrite workflowId guard_ (cancelRun cascade (s.workflows.size + 1) s workflowId)

/-! ## Suspending, metadata, fresh runs -/

def suspendedStep (wf : MutableWorkflow) (stepName : String) (u : StepUpdate) : StepState :=
  let existing := wf.steps.get stepName
  { stepName := stepName
    run := wf.run
    dependsOn := (existing.map (·.dependsOn)).getD []
    stepType := u.stepType.getD ((existing.map (·.stepType)).getD .single)
    attempt := (existing.map (·.attempt)).getD 1
    startedAt := (existing.bind (·.startedAt)).or (some s.now)
    status := u.status
    wakeAt := u.wakeAt
    signalName := u.signalName
    signalTimeoutAt := u.signalTimeoutAt
    signalJsonSchema := u.signalJsonSchema
    metadata := u.metadata }

def suspendWorkflow (workflowId stepName : String) (stepUpdate : StepUpdate) (guard_ : FenceGuard) :
    InMemoryWorkflowStorage × Except StorageError Unit :=
  s.fencedWrite workflowId guard_ <|
    match s.workflows.get workflowId with
    | none => s
    | some wf =>
      s.putRun workflowId
        { s.putStep wf (s.suspendedStep wf stepName stepUpdate) with status := .suspended }

def setWorkflowMetadata (workflowId : String) (patch : Record) (guard_ : FenceGuard) :
    InMemoryWorkflowStorage × Except StorageError Unit :=
  s.fencedWrite workflowId guard_ <|
    match s.workflows.get workflowId with
    | none => s
    | some wf =>
      s.putRun workflowId { wf with
        metadata := some (applyMetadataPatch wf.metadata patch), updatedAt := s.now }

def startFreshRun (workflowId : String) (expectedRun : Option Int) (nextInput : Option JsValue)
    (guard_ : FenceGuard) : InMemoryWorkflowStorage × Except StorageError Int :=
  s.fenced workflowId guard_ <|
    match s.workflows.get workflowId with
    | none => (s, .error (.error ("Workflow " ++ workflowId ++ " not found")))
    | some wf =>
      if expectedRun.isSome && expectedRun != some wf.run then (s, .ok wf.run)
      else
        let archived := (s.runHistory.get workflowId).getD [] ++ [currentRunSummary wf]
        let fresh := { wf with
          run := wf.run + 1
          input := nextInput.getD wf.input
          status := .pending
          result := none
          error := none
          errorTag := none
          tripwire := none
          startedAt := none
          completedAt := none
          steps := empty
          updatedAt := s.now }
        -- Signals and the journal are scoped to the run that ended.
        ({ s with
            runHistory := s.runHistory.set workflowId archived
            workflows := s.workflows.set workflowId fresh
            journal := s.journal.deleteWorkflow workflowId
            signals := s.signals.delete workflowId }, .ok fresh.run)

def resetSteps (workflowId : String) (stepNames : List String) :
    InMemoryWorkflowStorage × Except StorageError Unit :=
  match s.workflows.get workflowId with
  | none => (s, .error (.error ("Workflow " ++ workflowId ++ " not found")))
  | some wf =>
    if stepNames.isEmpty then (s, .ok ())
    else
      let kept := stepNames.foldl (fun m stepName => m.delete stepName) wf.steps
      let steps := kept.mapValues fun _ step =>
        if step.compensationStatus.isSome then withoutCompensationLedger step else step
      let wf := { wf with steps := steps, updatedAt := s.now }
      let wf := if wf.status.isTerminal then
          { wf with
            status := .running
            result := none
            error := none
            errorTag := none
            tripwire := none
            completedAt := none }
        else wf
      ({ s with
          workflows := s.workflows.set workflowId wf
          journal := stepNames.foldl (fun j stepName => j.deleteStep workflowId stepName)
            s.journal }, .ok ())

/-! ## Locks -/

def tryLock (workflowId : String) (lockDurationMs : Int) (attemptId : Option String) :
    InMemoryWorkflowStorage × TryLockResult :=
  let r := s.leases.tryAcquire s.now workflowId lockDurationMs attemptId
  ({ s with leases := r.1 }, r.2)

def releaseLock (workflowId : String) (guard_ : FenceGuard) : InMemoryWorkflowStorage :=
  { s with leases := s.leases.release workflowId guard_ }

def heartbeat (workflowId : String) (lockDurationMs : Int) (guard_ : FenceGuard) :
    InMemoryWorkflowStorage × Except StorageError Unit :=
  let r := s.leases.extend s.now workflowId lockDurationMs guard_
  ({ s with leases := r.1 }, r.2.mapError .fence)

/-! ## Purging -/

/-- Whether `purgeCompleted` deletes the run, limit aside. -/
def purgeable (window : PurgeWindow) (wf : MutableWorkflow) : Bool :=
  let bounds := match window with
    | .olderThan ms => (0, s.now - ms)
    | .between from_ to_ => (from_, to_)
  wf.status.isTerminal &&
  match wf.completedAt with
  | some t => decide (bounds.1 ≤ t) && decide (t < bounds.2)
  | none => false

/-- Drop a deleted run from the idempotency and parent indexes. -/
def forgetIndexes (wf : MutableWorkflow) : InMemoryWorkflowStorage :=
  { s with
    idempotencyIndex := match wf.idempotencyKey with
      | some key =>
        let indexKey := idempotencyIndexKey wf.ns wf.workflowName key
        if s.idempotencyIndex.get indexKey = some wf.workflowId then
          s.idempotencyIndex.delete indexKey
        else s.idempotencyIndex
      | none => s.idempotencyIndex
    children := match wf.parentWorkflowId with
      | some parent =>
        match s.children.get parent with
        | some siblings =>
          let siblings := siblings.filter (· != wf.workflowId)
          if siblings.isEmpty then s.children.delete parent else s.children.set parent siblings
        | none => s.children
      | none => s.children }

def deleteRun (id : String) (wf : MutableWorkflow) : InMemoryWorkflowStorage :=
  let s := forgetIndexes { s with workflows := s.workflows.delete id } wf
  { s with
    leases := s.leases.forget id
    signals := s.signals.delete id
    attempts := s.attempts.delete id
    runHistory := s.runHistory.delete id
    journal := s.journal.deleteWorkflow id
    signalTokens := s.signalTokens.deleteWorkflow id
    streams := s.streams.deleteWorkflow id }

/-- The loop of `purgeCompleted` over the run rows. -/
def purgeLoop (window : PurgeWindow) (limit : Int) :
    List (String × MutableWorkflow) → Nat → InMemoryWorkflowStorage → InMemoryWorkflowStorage × Nat
  | [], deleted, s => (s, deleted)
  | (id, wf) :: rest, deleted, s =>
    if (deleted : Int) ≥ limit then (s, deleted)
    else if s.purgeable window wf then purgeLoop window limit rest (deleted + 1) (s.deleteRun id wf)
    else purgeLoop window limit rest deleted s

def purgeCompleted (window : PurgeWindow) (limit : Int) : InMemoryWorkflowStorage × Nat :=
  purgeLoop window limit s.workflows.entries 0 s

/-! ## Signals, streams, events -/

/-- `deliverSignal`: the last delivery per name wins. -/
def deliverSignal (workflowId signalName : String) (payload : JsValue) : InMemoryWorkflowStorage :=
  let others := ((s.signals.get workflowId).getD []).filter fun d => d.signalName != signalName
  { s with signals := s.signals.set workflowId (others ++ [⟨signalName, payload, s.now⟩]) }

def createSignalToken (p : CreateSignalTokenParams) :
    InMemoryWorkflowStorage × Except StorageError (SignalTokenRecord × Bool) :=
  let r := s.signalTokens.create s.now p
  ({ s with signalTokens := r.1 }, r.2.mapError .error)

def completeSignalToken (tokenId : String) (value : JsValue) (now : Int) :
    InMemoryWorkflowStorage × Except StorageError
      (CompleteSignalTokenOutcome × SignalTokenRecord) :=
  let before := s.signalTokens.findById tokenId
  let r := s.signalTokens.markCompleted tokenId value now
  let s := { s with signalTokens := r.1 }
  match r.2 with
  | .error e => (s, .error (.error e))
  | .ok (outcome, record) =>
    let first := before.map fun r => r.completedAt.isNone
    if outcome = .delivered ∧ first = some true then
      (s.deliverSignal record.workflowId record.signalName value, .ok (outcome, record))
    else (s, .ok (outcome, record))

def appendStreamChunk (p : AppendStreamChunkParams) (guard_ : FenceGuard) :
    InMemoryWorkflowStorage × Except StorageError Nat :=
  let r := s.streams.append s.now p
  s.fenced p.workflowId guard_ ({ s with streams := r.1 }, .ok r.2)

def notifyStepStarted (workflowId stepName : String) : InMemoryWorkflowStorage :=
  s.emit workflowId (.stepStarted stepName s.now) false

/-! ## Attempts, checkpoints, compensation -/

/-- Upsert an attempt row of the run's current number. -/
def appendAttempt (record : StepAttemptRecord) : InMemoryWorkflowStorage :=
  let run := ((s.workflows.get record.workflowId).map (·.run)).getD 1
  let key := toString run ++ "|" ++ toString record.attempt ++ "|" ++ record.type.text ++ "|" ++
    record.stepName
  let existing := (s.attempts.get record.workflowId).getD []
  let row : AttemptRow := ⟨key, run, record⟩
  let rows := if existing.any fun e => e.key == key then
      existing.map fun e => if e.key == key then row else e
    else existing ++ [row]
  { s with attempts := s.attempts.set record.workflowId rows }

def saveStepAttempt (record : StepAttemptRecord) (guard_ : FenceGuard) :
    InMemoryWorkflowStorage × Except StorageError Unit :=
  s.fencedWrite record.workflowId guard_ (s.appendAttempt record)

/-- Attempts and outcome of one step execution, in one write. -/
def checkpointStep (c : StepCheckpoint) (guard_ : FenceGuard) :
    InMemoryWorkflowStorage × Except StorageError (Option WorkflowStatusSnapshot) :=
  s.fenced c.workflowId guard_ <|
    match s.workflows.get c.workflowId with
    | none => (s, .ok none)
    | some _ =>
      let s := c.attempts.foldl appendAttempt s
      let s := match c.outcome with
        | .completed result => s.writeStepResult {
            workflowId := c.workflowId, stepName := c.stepName, result := result
            durationMs := c.durationMs, startedAt := c.startedAt, metadata := c.metadata }
        | .failed error errorTag => s.writeStepFailure {
            workflowId := c.workflowId, stepName := c.stepName, error := error
            errorTag := errorTag, durationMs := c.durationMs, startedAt := c.startedAt
            metadata := c.metadata }
      (s, .ok ((s.workflows.get c.workflowId).map statusSnapshot))

def beginCompensation (workflowId error : String) (errorTag : Option String) (guard_ : FenceGuard) :
    InMemoryWorkflowStorage × Except StorageError Bool :=
  s.fenced workflowId guard_ <|
    match s.workflows.get workflowId with
    | none => (s, .ok false)
    | some wf =>
      if wf.status = .compensating then (s, .ok true)
      else if !cancellable wf.status then (s, .ok false)
      else
        (s.putRun workflowId { wf with
          status := .compensating, error := some error, errorTag := errorTag
          updatedAt := s.now }, .ok true)

def saveStepCompensation (workflowId stepName : String) (status : StepCompensationStatus)
    (error : Option String) (guard_ : FenceGuard) :
    InMemoryWorkflowStorage × Except StorageError Unit :=
  s.fencedWrite workflowId guard_ <|
    match s.workflows.get workflowId with
    | none => s
    | some wf =>
      match wf.steps.get stepName with
      | none => s
      | some step =>
        let step := { withoutCompensationLedger step with
          compensationStatus := some status, compensationError := error
          compensatedAt := some s.now }
        s.putRun workflowId { wf with steps := wf.steps.set stepName step, updatedAt := s.now }

/-! ## Journal -/

def loadJournal (workflowId stepName : String) : InMemoryWorkflowStorage × List JournalEntry :=
  let r := s.journal.load workflowId stepName
  ({ s with journal := r.1 }, r.2)

def appendEntry (a : EntryAddress) (activityName : String) (payloadHash : Option String)
    (exit : JournalExit) (guard_ : FenceGuard) :
    InMemoryWorkflowStorage × Except StorageError Unit :=
  s.fencedWrite a.workflowId guard_
    { s with journal := s.journal.append s.now a activityName payloadHash exit }

def appendPendingEntry (a : EntryAddress) (activityName : String) (payloadHash : Option String)
    (stepType : JournalStepType) (wakeAt : Option Int) (guard_ : FenceGuard) :
    InMemoryWorkflowStorage × Except StorageError Unit :=
  s.fencedWrite a.workflowId guard_
    { s with journal := s.journal.appendPending s.now a activityName payloadHash stepType wakeAt }

def completePendingEntry (a : EntryAddress) (exit : JournalExit) (guard_ : FenceGuard) :
    InMemoryWorkflowStorage × Except StorageError CompletePendingResult :=
  let r := s.journal.completePending a exit
  s.fenced a.workflowId guard_ ({ s with journal := r.1 }, .ok r.2)

def discardJournalEntries (workflowId stepName : String) (slots : List JournalSlot)
    (guard_ : FenceGuard) : InMemoryWorkflowStorage × Except StorageError Unit :=
  s.fencedWrite workflowId guard_ { s with journal := s.journal.discard workflowId stepName slots }

def findDueSleeps (now limit : Int) : InMemoryWorkflowStorage × List DueSleep :=
  let r := s.journal.findDueSleeps now limit
  ({ s with journal := r.1 }, r.2)

end InMemoryWorkflowStorage

/-! ## The storage as a machine -/

/-- One call on the storage, or time passing. -/
inductive StorageOp where
  | advance (ms : Nat)
  | createWorkflow (p : CreateWorkflowParams) (guard_ : FenceGuard)
  | saveStepResult (r : StepResultRecord) (guard_ : FenceGuard)
  | batchSaveStepResults (records : List StepResultRecord) (guard_ : FenceGuard)
  | saveStepFailure (r : StepFailureRecord) (guard_ : FenceGuard)
  | saveTask (workflowId stepName : String) (taskIndex : Int) (outcome : TaskOutcome)
      (guard_ : FenceGuard)
  | completeWorkflow (workflowId : String) (result : JsValue) (guard_ : FenceGuard)
  | failWorkflow (workflowId error : String) (errorTag : Option String) (guard_ : FenceGuard)
  | tripwireWorkflow (workflowId : String) (reason : JsValue) (guard_ : FenceGuard)
  | cancelWorkflow (workflowId : String) (cascade : Bool) (guard_ : FenceGuard)
  | suspendWorkflow (workflowId stepName : String) (stepUpdate : StepUpdate) (guard_ : FenceGuard)
  | setWorkflowMetadata (workflowId : String) (patch : Record) (guard_ : FenceGuard)
  | startFreshRun (workflowId : String) (expectedRun : Option Int) (nextInput : Option JsValue)
      (guard_ : FenceGuard)
  | resetSteps (workflowId : String) (stepNames : List String)
  | tryLock (workflowId : String) (lockDurationMs : Int) (attemptId : Option String)
  | releaseLock (workflowId : String) (guard_ : FenceGuard)
  | heartbeat (workflowId : String) (lockDurationMs : Int) (guard_ : FenceGuard)
  | purgeCompleted (window : PurgeWindow) (limit : Int)
  | deliverSignal (workflowId signalName : String) (payload : JsValue)
  | createSignalToken (p : CreateSignalTokenParams)
  | completeSignalToken (tokenId : String) (value : JsValue) (now : Int)
  | appendStreamChunk (p : AppendStreamChunkParams) (guard_ : FenceGuard)
  | notifyStepStarted (workflowId stepName : String)
  | saveStepAttempt (record : StepAttemptRecord) (guard_ : FenceGuard)
  | checkpointStep (c : StepCheckpoint) (guard_ : FenceGuard)
  | beginCompensation (workflowId error : String) (errorTag : Option String)
      (guard_ : FenceGuard)
  | saveStepCompensation (workflowId stepName : String) (status : StepCompensationStatus)
      (error : Option String) (guard_ : FenceGuard)
  | loadJournal (workflowId stepName : String)
  | appendEntry (a : EntryAddress) (activityName : String) (payloadHash : Option String)
      (exit : JournalExit) (guard_ : FenceGuard)
  | appendPendingEntry (a : EntryAddress) (activityName : String) (payloadHash : Option String)
      (stepType : JournalStepType) (wakeAt : Option Int) (guard_ : FenceGuard)
  | completePendingEntry (a : EntryAddress) (exit : JournalExit) (guard_ : FenceGuard)
  | discardJournalEntries (workflowId stepName : String) (slots : List JournalSlot)
      (guard_ : FenceGuard)
  | findDueSleeps (now limit : Int)

/-- What a call on the storage answers. -/
inductive StorageAnswer where
  | void
  | created (existing : Option WorkflowState)
  | locked (result : TryLockResult)
  | runNumber (run : Int)
  | count (n : Nat)
  | signalToken (record : SignalTokenRecord) (isCached : Bool)
  | signalCompleted (outcome : CompleteSignalTokenOutcome) (record : SignalTokenRecord)
  | chunkIndex (n : Nat)
  | status (snapshot : Option WorkflowStatusSnapshot)
  | flag (b : Bool)
  | entries (entries : List JournalEntry)
  | completedEntry (result : CompletePendingResult)
  | dueSleeps (due : List DueSleep)

def answered {α : Type} (f : α → StorageAnswer)
    (r : InMemoryWorkflowStorage × Except StorageError α) :
    InMemoryWorkflowStorage × Except StorageError StorageAnswer :=
  (r.1, r.2.map f)

def storage : Machine InMemoryWorkflowStorage StorageOp (Except StorageError StorageAnswer) where
  step s o := match o with
    | .advance ms => ({ s with now := s.now + ms }, .ok .void)
    | .createWorkflow p g => answered .created (s.createWorkflow p g)
    | .saveStepResult r g => answered (fun _ => .void) (s.saveStepResult r g)
    | .batchSaveStepResults records g =>
      answered (fun _ => .void) (s.batchSaveStepResults records g)
    | .saveStepFailure r g => answered (fun _ => .void) (s.saveStepFailure r g)
    | .saveTask w step i outcome g => answered (fun _ => .void) (s.saveTask w step i outcome g)
    | .completeWorkflow w result g => answered (fun _ => .void) (s.completeWorkflow w result g)
    | .failWorkflow w error tag g => answered (fun _ => .void) (s.failWorkflow w error tag g)
    | .tripwireWorkflow w reason g => answered (fun _ => .void) (s.tripwireWorkflow w reason g)
    | .cancelWorkflow w cascade g => answered (fun _ => .void) (s.cancelWorkflow w cascade g)
    | .suspendWorkflow w step u g => answered (fun _ => .void) (s.suspendWorkflow w step u g)
    | .setWorkflowMetadata w patch g => answered (fun _ => .void) (s.setWorkflowMetadata w patch g)
    | .startFreshRun w run input g => answered .runNumber (s.startFreshRun w run input g)
    | .resetSteps w names => answered (fun _ => .void) (s.resetSteps w names)
    | .tryLock w ms attempt => let r := s.tryLock w ms attempt; (r.1, .ok (.locked r.2))
    | .releaseLock w g => (s.releaseLock w g, .ok .void)
    | .heartbeat w ms g => answered (fun _ => .void) (s.heartbeat w ms g)
    | .purgeCompleted window limit =>
      let r := s.purgeCompleted window limit; (r.1, .ok (.count r.2))
    | .deliverSignal w name payload => (s.deliverSignal w name payload, .ok .void)
    | .createSignalToken p => answered (fun r => .signalToken r.1 r.2) (s.createSignalToken p)
    | .completeSignalToken id value now =>
      answered (fun r => .signalCompleted r.1 r.2) (s.completeSignalToken id value now)
    | .appendStreamChunk p g => answered .chunkIndex (s.appendStreamChunk p g)
    | .notifyStepStarted w step => (s.notifyStepStarted w step, .ok .void)
    | .saveStepAttempt record g => answered (fun _ => .void) (s.saveStepAttempt record g)
    | .checkpointStep c g => answered .status (s.checkpointStep c g)
    | .beginCompensation w error tag g => answered .flag (s.beginCompensation w error tag g)
    | .saveStepCompensation w step status error g =>
      answered (fun _ => .void) (s.saveStepCompensation w step status error g)
    | .loadJournal w step => let r := s.loadJournal w step; (r.1, .ok (.entries r.2))
    | .appendEntry a name hash exit g =>
      answered (fun _ => .void) (s.appendEntry a name hash exit g)
    | .appendPendingEntry a name hash type wakeAt g =>
      answered (fun _ => .void) (s.appendPendingEntry a name hash type wakeAt g)
    | .completePendingEntry a exit g => answered .completedEntry (s.completePendingEntry a exit g)
    | .discardJournalEntries w step slots g =>
      answered (fun _ => .void) (s.discardJournalEntries w step slots g)
    | .findDueSleeps now limit => let r := s.findDueSleeps now limit; (r.1, .ok (.dueSleeps r.2))

end Promin.Durable

import Promin.Durable.DagExecutor

/-!
# Orchestrating a run

`WorkflowRunner.run`: under the lock of the run, a call answers for a run that already ended
or drives it to its end.  An ended run is answered for by the idempotency cache
(`cachedIdempotentOutcome`) or at the entry gate (`completedRunResult`).

The version drain, the compensations of a rollback, hooks, the dead-letter queue and the wake
of a parent run are not modelled.
-/

namespace Promin.Durable

variable {V : Type}

/-! ## Configuration -/

inductive IdempotencyTtl where
  | always (ttl : Int)
  | byOutcome (success : Int) (failure : Option Int)

inductive OnExpiry where
  | freshRun
  | replay
  deriving DecidableEq

structure IdempotencyConfig where
  ttl : IdempotencyTtl
  onExpiry : OnExpiry := .freshRun

def getIdempotencyTtl (idempotency : Option IdempotencyConfig) (status : WorkflowStatus) :
    Option Int :=
  match idempotency with
  | none => none
  | some config =>
    match config.ttl with
    | .always ttl => some ttl
    | .byOutcome success failure =>
      if status = .completed then some success
      else if status = .failed then failure
      else none

structure WorkflowRetryPolicy where
  maxRetries : Nat := 3
  timeBudgetMs : Option Int := none
  retryDefects : Bool := false
  admits : Thrown → Bool := fun _ => true

/-- `WorkflowOrchestrationContext`, and how the step bodies of the run end. -/
structure WorkflowOrchestrationContext (V : Type) where
  json : JsonValues V
  name : String
  version : Option String := none
  type : Option String := none
  metadata : Option Record := none
  steps : WorkflowSteps V
  retry : Option WorkflowRetryPolicy := none
  /-- `compensateConfig.trigger` is `"immediate"`. -/
  compensateImmediately : Bool := false
  idempotency : Option IdempotencyConfig := none
  timeoutMs : Option Int := none
  lockDurationMs : Int := 120000
  stepCheckpoint : Bool := true
  body : List (DriveEvent V) → String → StepExit V

structure RunParams (V : Type) where
  workflowId : String
  input : V
  force : Bool := false
  ns : Option String := none
  idempotencyKey : Option String := none
  idempotencyExpiresAt : Option Int := none
  rejectInFlight : Bool := false
  useStoredInput : Bool := false

/-! ## Answers for a run that ended -/

/-- The error a stored `failed` or `tripwire` run is reported with. -/
def runFailure (state : WorkflowState) : Thrown :=
  .error (state.error.getD ("Workflow " ++ state.workflowId ++ " failed"))
    (some "WorkflowFailedError")

def storedRunError (state : WorkflowState) : Option Thrown :=
  if state.status = .tripwire then
    some (.error ("Workflow \"" ++ state.workflowId ++ "\" ended via tripwire")
      (some "WorkflowTripwireError"))
  else if state.status ≠ .failed then none
  else if isCancelledRun state.status state.errorTag then
    some (cancelledRunError state.workflowId)
  else some (runFailure state)

namespace WorkflowOrchestrationContext

variable (ctx : WorkflowOrchestrationContext V)

def loadedResult (result : Option JsValue) : V := ctx.json.loaded (result.getD .undefined)

def completedRunResult (state : WorkflowState) : Except Thrown V :=
  match state.steps.get ctx.steps.lastStep.name with
  | some row =>
    if row.status = .completed then
      ctx.steps.lastStep.codec.decode (ctx.loadedResult row.result)
    else .ok (ctx.loadedResult state.result)
  | none => .ok (ctx.loadedResult state.result)

def cachedIdempotentOutcome (state : WorkflowState) (now : Int) : Except Thrown (Option V) :=
  match state.completedAt with
  | none => .ok none
  | some completedAt =>
    match getIdempotencyTtl ctx.idempotency state.status with
    | none => .ok none
    | some ttl =>
      if now - completedAt ≥ ttl then .ok none
      else if state.status = .completed then .ok (some (ctx.loadedResult state.result))
      else if state.status = .failed then
        .error (.error (state.error.getD ("Workflow \"" ++ state.workflowId ++
          "\" failed (cached, TTL " ++ toString ttl ++ "ms)")) (some "WorkflowError"))
      else .ok none

/-! ## Retrying -/

/-- Whether the retry policy of the workflow admits another run after `error`. -/
def mayRetry (retry : Nat) (error : Thrown) (firstFailureMs now : Int) : Bool :=
  match ctx.retry with
  | none => false
  | some policy =>
    !ctx.compensateImmediately && decide (retry < policy.maxRetries) &&
    !(policy.timeBudgetMs.any fun budget =>
      decide (budget > 0 ∧ now - firstFailureMs ≥ budget)) &&
    !isControlFlowExit error &&
    !(error.tag == some "WorkflowDeadlineError" || error.tag == some cancelledErrorTag) &&
    (error.tag.isSome || policy.retryDefects) && policy.admits error

def maxRetries : Nat := (ctx.retry.map (·.maxRetries)).getD 0

/-! ## Driving -/

def terminalWrite {α : Type} (workflowId operation : String) (write : Drive (DriveEvent V) α) :
    Drive (DriveEvent V) α :=
  tryCatch (Prog.retry (fun e => !isControlFlowExit e) (fun _ => write) 0 3) fun error =>
    if isControlFlowExit error then throw error
    else throw (.error ("Workflow \"" ++ workflowId ++ "\": " ++ operation ++
      " failed after 3 retries: " ++ errorMessage error) (some "CheckpointError"))

/-- Reject if a cancel won against a terminal write. -/
def assertNotCancelled (workflowId : String) : Drive (DriveEvent V) Unit := do
  let status ← loadWorkflowStatus workflowId
  if status.any (·.isCancelled) then throw (cancelledRunError workflowId) else pure ()

/-- The failure path, the compensations themselves left out. -/
def rollBackAndFail {α : Type} (workflowId : String) (guard_ : FenceGuard) (error : Thrown)
    (errorMsg : String) (failedTag : Option String) (resumed : Bool) :
    Drive (DriveEvent V) α := do
  let entered ← (if resumed then pure true
    else terminalWrite workflowId "beginCompensation" <|
      storageCall workflowId [] fun s => s.beginCompensation workflowId errorMsg failedTag guard_)
  (if entered then
      terminalWrite workflowId "failWorkflow" <|
        storageCall workflowId [] fun s => s.failWorkflow workflowId errorMsg failedTag guard_
    else assertNotCancelled workflowId)
  throw error

/-- How a drive of the run under one lock ends, when it does not throw. -/
inductive CycleEnd (V : Type) where
  | returned (result : V)
  /-- The run asks to continue as a new one. `run` is its own number. -/
  | continued (nextInput : Option V) (run : Option Int)

def dagContext (workflowId : String) (guard_ : FenceGuard) : DagExecutionContext V where
  json := ctx.json
  workflowId := workflowId
  steps := ctx.steps
  timeoutMs := ctx.timeoutMs
  guard_ := guard_
  stepCheckpoint := ctx.stepCheckpoint
  body := ctx.body

/-- One pass over the steps, up to the write that ends the run. A failure is answered. -/
def driveOnce (workflowId : String) (guard_ : FenceGuard) (input : V) (deadlineMs : Option Int)
    (state : Option WorkflowState) : Drive (DriveEvent V) (Except Thrown (CycleEnd V)) := do
  match ← (ctx.dagContext workflowId guard_).executeWorkflowDag input deadlineMs state with
  | .success finalResult =>
    terminalWrite workflowId "completeWorkflow" <|
      storageCall workflowId [.completed workflowId] fun s =>
        s.completeWorkflow workflowId (ctx.json.stored finalResult) guard_
    assertNotCancelled workflowId
    pure (.ok (.returned finalResult))
  | .tripwire stepName reason =>
    terminalWrite workflowId "tripwireWorkflow" <|
      storageCall workflowId [] fun s => s.tripwireWorkflow workflowId reason guard_
    assertNotCancelled workflowId
    throw (.error ("Workflow \"" ++ workflowId ++ "\" ended via tripwire at step \"" ++
      stepName ++ "\"") (some "WorkflowTripwireError"))
  | .suspended error => throw error
  | .continueAsNew nextInput => pure (.ok (.continued nextInput (state.map (·.run))))
  | .failed error => if isAbandonRunExit error then throw error else pure (.error error)
  | .unfinished => throw .undefined

/-- Passes from number `workflowAttempt` on, with `left` retries to go. -/
def driveAttempts (workflowId : String) (guard_ : FenceGuard) (input : V)
    (deadlineMs : Option Int) :
    (left workflowAttempt : Nat) → (firstFailureMs : Option Int) → Option WorkflowState →
      Drive (DriveEvent V) (CycleEnd V)
  | left, workflowAttempt, firstFailureMs, state => do
    match ← ctx.driveOnce workflowId guard_ input deadlineMs state with
    | .ok ended => pure ended
    | .error error =>
      -- A cancel that landed during the failing wave wins over the failure.
      assertNotCancelled workflowId
      let now ← clockNow workflowId
      let firstFailureMs := firstFailureMs.getD now
      match left with
      | left + 1 =>
        if ctx.mayRetry workflowAttempt error firstFailureMs now then
          assertRunActive workflowId none
          let state ← loadWorkflow workflowId
          driveAttempts workflowId guard_ input deadlineMs left (workflowAttempt + 1)
            (some firstFailureMs) state
        else
          rollBackAndFail workflowId guard_ error (errorMessage error) error.tag false
      | 0 => rollBackAndFail workflowId guard_ error (errorMessage error) error.tag false

/-! ## One cycle -/

/-- What a cycle knows once it has looked at the stored run. -/
inductive Entry (V : Type) where
  | answered (result : V)
  | proceeds (state : Option WorkflowState)

variable (p : RunParams V)

def checkIdempotency (guard_ : FenceGuard) (state : Option WorkflowState) :
    Drive (DriveEvent V) (Entry V) :=
  match ctx.idempotency, state with
  | some config, some stored =>
    if p.force || stored.completedAt.isNone then pure (.proceeds state)
    else do
      let now ← clockNow p.workflowId
      match ctx.cachedIdempotentOutcome stored now with
      | .error error => throw error
      | .ok (some result) => pure (.answered result)
      | .ok none =>
        if config.onExpiry = .freshRun ∧
            (stored.status = .completed ∨ stored.status = .failed) then
          let _ ← storageCall p.workflowId [] fun s =>
            s.startFreshRun p.workflowId (some stored.run) none guard_
          let state ← loadWorkflow p.workflowId
          pure (.proceeds state)
        else pure (.proceeds state)
  | _, _ => pure (.proceeds state)

def versionMismatch (workflowId version : String) (storedVersion : Option String) : Thrown :=
  .error ("Workflow \"" ++ workflowId ++ "\" was created with version \"" ++
    storedVersion.getD "(none)" ++ "\" but current code is version \"" ++ version ++
    "\". To resume this workflow, either use `onVersionMismatch: \"drain\"` + " ++
    "`previousVersions: [v" ++ storedVersion.getD "N" ++ "]` on the workflow config, or " ++
    "register both versions in a WorkflowVersionRegistry.") (some "WorkflowVersionMismatchError")

def createWorkflow : Drive (DriveEvent V) (Option WorkflowState) :=
  Prog.act (interfere p.workflowId) fun w =>
    let keyed := truthy p.idempotencyKey && p.idempotencyExpiresAt.isSome
    match w.storage.createWorkflow {
        workflowId := p.workflowId, workflowName := ctx.name, input := ctx.json.stored p.input
        workflowType := ctx.type, ns := p.ns, metadata := ctx.metadata, version := ctx.version
        idempotencyKey := if keyed then p.idempotencyKey else none
        idempotencyExpiresAt := if keyed then p.idempotencyExpiresAt else none } none with
    | (s, .ok (some existing)) =>
      (.ok (some existing), { storage := s, events := w.events ++ [.loaded existing.steps] })
    | (s, .ok none) => (.ok none, { w with storage := s })
    | (s, .error e) => (.error e.thrown, { w with storage := s })

def createOrCheck (state : Option WorkflowState) : Drive (DriveEvent V) (Option WorkflowState) :=
  match state with
  | none =>
    if p.useStoredInput then
      throw (.error ("Workflow \"" ++ p.workflowId ++
        "\" has no stored run to drive (useStoredInput)") (some "WorkflowRunNotFoundError"))
    else do
      match ← ctx.createWorkflow p with
      -- The key is held by another run: attach to that.
      | some existing => pure (some existing)
      | none => loadWorkflow p.workflowId
  | some stored =>
    if truthy ctx.version && stored.version != ctx.version then
      throw (versionMismatch p.workflowId (ctx.version.getD "") stored.version)
    else pure state

/-- The entry gate. With `force` an ended run is archived and a fresh one starts. -/
def entryGate (guard_ : FenceGuard) (state : Option WorkflowState) :
    Drive (DriveEvent V) (Entry V) :=
  match state with
  | none => pure (.proceeds none)
  | some stored =>
    if stored.status.isTerminal = false then pure (.proceeds state)
    else if p.force = false then
      match storedRunError stored with
      | some error => throw error
      | none =>
        match ctx.completedRunResult stored with
        | .error error => throw error
        | .ok result => pure (.answered result)
    else do
      let _ ← storageCall p.workflowId [] fun s =>
        s.startFreshRun p.workflowId (some stored.run) none guard_
      let state ← loadWorkflow p.workflowId
      pure (.proceeds state)

def runStartMs (state : WorkflowState) (now : Int) : Int :=
  match state.startedAt with
  | some startedAt => startedAt
  | none => if state.status = .pending then now else state.createdAt

def proceed (guard_ : FenceGuard) (input : V) (workflowStartTime : Int)
    (state : Option WorkflowState) : Drive (DriveEvent V) (CycleEnd V) :=
  match topologicalSort ctx.steps.dagNodes with
  | .error message => throw (.error message (some "WorkflowError"))
  | .ok _ =>
    match state.filter fun stored => decide (stored.status = .compensating) with
    | some stored =>
      rollBackAndFail p.workflowId guard_ (runFailure stored)
        (stored.error.getD ("Workflow " ++ p.workflowId ++ " failed")) stored.errorTag true
    | none => do
      let now ← clockNow p.workflowId
      let started := (state.map fun stored => runStartMs stored now).getD workflowStartTime
      ctx.driveAttempts p.workflowId guard_ input (ctx.timeoutMs.map (started + ·))
        ctx.maxRetries 0 none state

def runOneOrchestrationCycle (guard_ : FenceGuard) (preloaded : Option (Option WorkflowState)) :
    Drive (DriveEvent V) (CycleEnd V) := do
  let workflowStartTime ← clockNow p.workflowId
  let state ← (match preloaded with
    | some state => pure state
    | none => loadWorkflow p.workflowId)
  match ← ctx.checkIdempotency p guard_ state with
  | .answered result => pure (.returned result)
  | .proceeds state =>
    let state ← ctx.createOrCheck p state
    -- A driver of a run created elsewhere does not carry its input.
    let input := match state with
      | some stored => if p.useStoredInput then ctx.json.loaded stored.input else p.input
      | none => p.input
    match ← ctx.entryGate p guard_ state with
    | .answered result => pure (.returned result)
    | .proceeds state => ctx.proceed p guard_ input workflowStartTime state

/-! ## A call -/

def maxContinueAsNewChain : Nat := 1024

def runChain (guard_ : FenceGuard) :
    (left : Nat) → RunParams V → (preloaded : Option (Option WorkflowState)) →
      Drive (DriveEvent V) V
  | 0, p, _ => throw (.error ("Workflow \"" ++ p.workflowId ++
      "\" exceeded continue-as-new chain limit (" ++ toString maxContinueAsNewChain ++
      "). Likely an infinite continue-as-new loop in the workflow body.") none)
  | left + 1, p, preloaded => do
    match ← ctx.runOneOrchestrationCycle p guard_ preloaded with
    | .returned result => pure result
    | .continued nextInput run =>
      let nextInput := nextInput.getD (ctx.json.loaded .null)
      let _ ← storageCall p.workflowId [] fun s =>
        s.startFreshRun p.workflowId run (some (ctx.json.stored nextInput)) guard_
      runChain guard_ left
        { workflowId := p.workflowId, input := nextInput, force := true, ns := p.ns } none

def tryLockAndLoad (workflowId : String) :
    Drive (DriveEvent V) (Option (FenceGuard × Option WorkflowState)) :=
  Prog.act (interfere workflowId) fun w =>
    match w.storage.tryLock workflowId ctx.lockDurationMs none with
    | (s, locked) =>
      if locked.acquired then
        let state := (s.workflows.get workflowId).map (·.toWorkflowState)
        (.ok (some (locked.token, state)),
          { storage := s
            events := w.events ++ [.loaded ((state.map (·.steps)).getD JsMap.empty)] })
      else (.ok none, { w with storage := s })

/-- Run `fn` under the lock of the run, and release it. -/
def withLock {α : Type} (workflowId : String)
    (fn : FenceGuard → Option WorkflowState → Drive (DriveEvent V) α) :
    Drive (DriveEvent V) α := do
  match ← ctx.tryLockAndLoad workflowId with
  | none => throw (.error ("Could not acquire lock on workflow \"" ++ workflowId ++
      "\" — already running") (some "WorkflowLockError"))
  | some (token, state) =>
    let ended ← tryCatch (do let a ← fn token state; pure (Except.ok a))
      fun error => pure (Except.error error)
    storageCall workflowId [] fun s => (s.releaseLock workflowId token, .ok ())
    match ended with
    | .ok a => pure a
    | .error error => throw error

/-- The idempotency check before the lock is taken. -/
def precheck : Drive (DriveEvent V) (Option V) :=
  if p.force || ctx.idempotency.isNone then pure none
  else do
    match ← loadWorkflow p.workflowId with
    | none => pure none
    | some existing =>
      let now ← clockNow p.workflowId
      match ctx.cachedIdempotentOutcome existing now with
      | .error error => throw error
      | .ok cached => pure cached

def runWorkflowOrchestration : Drive (DriveEvent V) V := do
  match ← ctx.precheck p with
  | some result => pure result
  | none =>
    ctx.withLock p.workflowId fun token state =>
      if p.rejectInFlight && state.any fun stored => !stored.status.isTerminal then
        throw (.error ("Workflow \"" ++ p.workflowId ++ "\" is already running")
          (some "WorkflowLockError"))
      else ctx.runChain token maxContinueAsNewChain p (some state)

def run (idempotencyKeyTTL : Option Int) : Drive (DriveEvent V) V :=
  if truthy p.idempotencyKey then
    match idempotencyKeyTTL with
    | none => throw (.error ("WorkflowRunner.run: `idempotencyKey` requires " ++
        "`idempotencyKeyTTL`. Pass a TTL in milliseconds — there is no default.") none)
    | some ttl => do
      let now ← clockNow p.workflowId
      let hit ← storageCall p.workflowId [] fun s =>
        (s, .ok (s.findWorkflowByIdempotencyKey p.ns ctx.name (p.idempotencyKey.getD "") s.now))
      ctx.runWorkflowOrchestration { p with
        workflowId := hit.getD p.workflowId, idempotencyExpiresAt := some (now + ttl) }
  else ctx.runWorkflowOrchestration { p with idempotencyKey := none, idempotencyExpiresAt := none }

end WorkflowOrchestrationContext

end Promin.Durable

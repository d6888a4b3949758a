import Promin.Durable.Driving

/-!
# The wave loop

`executeWorkflowDag`: a drive takes over the completed step rows of its run,
then runs the steps that are ready as a wave, checkpoints each as it settles,
and folds the decoded results back in, until every step is completed.
-/

namespace Promin.Durable

/-! ## Values and steps -/

/-- The values of the program, and what a storage that keeps JSON makes of them. -/
structure JsonValues (V : Type) where
  /-- What is stored of a value: its JSON text, parsed. -/
  stored : V → JsValue
  /-- A stored value as the program reads it. -/
  loaded : JsValue → V

/-- `Codec<unknown>`. The encoded form is a value like any other, and both ways can throw. -/
structure StepCodec (V : Type) where
  encode : V → Except Thrown V
  decode : V → Except Thrown V

structure StepDefinition (V : Type) where
  name : String
  dependsOn : List String
  codec : StepCodec V
  tripwire : Bool := false
  skipWhen : Option (V → Except Thrown Bool) := none
  skipValue : Option (V → Except Thrown V) := none

/-- The steps of a built workflow: the builder starts with a step and rejects a second step of
    a name. -/
structure WorkflowSteps (V : Type) where
  list : List (StepDefinition V)
  nonempty : list ≠ []
  names : (list.map (·.name)).Nodup

variable {V : Type}

namespace WorkflowSteps

def lastStep (steps : WorkflowSteps V) : StepDefinition V := steps.list.getLast steps.nonempty

def dagNodes (steps : WorkflowSteps V) : List DagNode :=
  steps.list.map fun step => ⟨step.name, step.dependsOn⟩

def byName (steps : WorkflowSteps V) (name : String) : Option (StepDefinition V) :=
  steps.list.find? (·.name = name)

end WorkflowSteps

/-! ## Outcomes -/

/-- How a step body ends, its policies applied. The result is encoded. -/
inductive StepExit (V : Type) where
  | completed (result : V) (metadata : Option Record)
  | failed (error : Thrown) (metadata : Option Record)
  | suspended (error : Thrown)
  | continueAsNew (nextInput : Option V)

/-- `StepOutcome`: what one step of a wave came to. The result is encoded. -/
inductive SettledStep (V : Type) where
  | completed (name : String) (result : V) (metadata : Option Record)
      (startedAt durationMs : Int) (skipped : Bool)
  | failed (name : String) (error : Thrown) (metadata : Option Record)
      (startedAt durationMs : Int)
  | suspended (name : String) (error : Thrown)
  | continueAsNew (name : String) (nextInput : Option V)

def SettledStep.name : SettledStep V → String
  | .completed name .. => name
  | .failed name .. => name
  | .suspended name _ => name
  | .continueAsNew name _ => name

def outcomeOfBody (name : String) (startedAt durationMs : Int) : StepExit V → SettledStep V
  | .completed result metadata => .completed name result metadata startedAt durationMs false
  | .failed error metadata => .failed name error metadata startedAt durationMs
  | .suspended error => .suspended name error
  | .continueAsNew nextInput => .continueAsNew name nextInput

structure CheckpointedStep (V : Type) where
  outcome : SettledStep V
  runStatus : Option (Option WorkflowStatusSnapshot)

structure WaveOutcome (V : Type) where
  outcomes : List (SettledStep V)
  runStatus : Option (Option WorkflowStatusSnapshot)

inductive DagExecutionResult (V : Type) where
  | success (result : V)
  | failed (error : Thrown)
  | suspended (error : Thrown)
  | continueAsNew (nextInput : Option V)
  | tripwire (stepName : String) (reason : JsValue)
  /-- Out of waves: with one more wave than steps, no drive ends so. -/
  | unfinished

/-- What a drive does outside its own memory. -/
inductive DriveEvent (V : Type) where
  /-- The run was read, with these step rows. -/
  | loaded (steps : JsMap String StepState)
  /-- The body of a step was run. -/
  | ran (stepName : String) (exit : StepExit V)
  | checkpointed (outcome : SettledStep V)
  /-- `completeWorkflow` of the run went through. -/
  | completed (workflowId : String)

structure DagExecutionContext (V : Type) where
  json : JsonValues V
  workflowId : String
  steps : WorkflowSteps V
  timeoutMs : Option Int := none
  guard_ : FenceGuard := none
  stepCheckpoint : Bool := true
  body : List (DriveEvent V) → String → StepExit V

def isCancelledRun (status : WorkflowStatus) (errorTag : Option String) : Bool :=
  decide (status = .failed ∧ errorTag = some cancelledErrorTag)

def WorkflowStatusSnapshot.isCancelled (status : WorkflowStatusSnapshot) : Bool :=
  isCancelledRun status.status status.errorTag

def cancelledRunError (workflowId : String) : Thrown :=
  .error ("Workflow \"" ++ workflowId ++ "\" was cancelled") (some cancelledErrorTag)

/-! ## Storage calls -/

def clockNow (workflowId : String) : Drive (DriveEvent V) Int :=
  storageCall workflowId [] fun s => (s, .ok s.now)

def loadWorkflow (workflowId : String) : Drive (DriveEvent V) (Option WorkflowState) :=
  Prog.act (interfere workflowId) fun w =>
    let state := (w.storage.workflows.get workflowId).map (·.toWorkflowState)
    (.ok state,
      { w with events := w.events ++ [.loaded ((state.map (·.steps)).getD JsMap.empty)] })

def loadWorkflowStatus (workflowId : String) :
    Drive (DriveEvent V) (Option WorkflowStatusSnapshot) :=
  storageCall workflowId [] fun s => (s, .ok ((s.workflows.get workflowId).map statusSnapshot))

/-- Stop a run that reads as cancelled. `observed` stands in for a read of its status. -/
def assertRunActive (workflowId : String) (observed : Option (Option WorkflowStatusSnapshot)) :
    Drive (DriveEvent V) Unit := do
  let status ← match observed with
    | some status => pure status
    | none => loadWorkflowStatus workflowId
  if status.any (·.isCancelled) then throw (cancelledRunError workflowId) else pure ()

namespace DagExecutionContext

variable (x : DagExecutionContext V)

def undefined : V := x.json.loaded .undefined

def checkpointStepOutcome (outcome : SettledStep V) :
    Drive (DriveEvent V) (CheckpointedStep V) :=
  match outcome with
  | .suspended _ _ => pure ⟨outcome, none⟩
  | .continueAsNew _ _ => pure ⟨outcome, none⟩
  | .completed name result metadata startedAt durationMs _ =>
    if x.stepCheckpoint then do
      let status ← checkpointWrite x.workflowId "checkpointStep" name <|
        storageCall x.workflowId [.checkpointed outcome] fun s => s.checkpointStep {
          workflowId := x.workflowId, stepName := name, attempts := []
          outcome := .completed (x.json.stored result)
          durationMs := durationMs, startedAt := startedAt, metadata := metadata } x.guard_
      pure ⟨outcome, some status⟩
    else do
      checkpointWrite x.workflowId "saveStepResult" name <|
        storageCall x.workflowId [.checkpointed outcome] fun s => s.saveStepResult {
          workflowId := x.workflowId, stepName := name, result := x.json.stored result
          durationMs := durationMs, startedAt := startedAt, metadata := metadata } x.guard_
      pure ⟨outcome, none⟩
  | .failed name error metadata startedAt durationMs =>
    if x.stepCheckpoint then do
      let status ← checkpointWrite x.workflowId "checkpointStep" name <|
        storageCall x.workflowId [.checkpointed outcome] fun s => s.checkpointStep {
          workflowId := x.workflowId, stepName := name, attempts := []
          outcome := .failed (errorMessage error) error.tag
          durationMs := durationMs, startedAt := startedAt, metadata := metadata } x.guard_
      pure ⟨outcome, some status⟩
    else do
      checkpointWrite x.workflowId "saveStepFailure" name <|
        storageCall x.workflowId [.checkpointed outcome] fun s => s.saveStepFailure {
          workflowId := x.workflowId, stepName := name
          error := errorMessage error, errorTag := error.tag
          durationMs := durationMs, startedAt := startedAt, metadata := metadata } x.guard_
      pure ⟨outcome, none⟩

/-! ## A wave -/

variable (step : StepDefinition V)

def stepInput (input : V) (results : JsMap String V) : V :=
  match step.dependsOn.head? with
  | some prevStepName => (results.get prevStepName).getD x.undefined
  | none => input

/-- The completed outcome of a step whose `skipWhen` matches its input, if it does. -/
def skippedOutcome (input : V) (results : JsMap String V) (now : Int) :
    Except Thrown (Option (SettledStep V)) :=
  match step.skipWhen with
  | none => .ok none
  | some skipWhen => do
    let prev := x.stepInput step input results
    if ← skipWhen prev then
      let skipResult ← match step.skipValue with
        | some skipValue => skipValue prev
        | none => .ok prev
      .ok (some (.completed step.name (← step.codec.encode skipResult) none now 0 true))
    else .ok none

def runBody : Drive (DriveEvent V) (StepExit V) :=
  Prog.act (interfere x.workflowId) fun w =>
    let exit := x.body w.events step.name
    (.ok exit, { w with events := w.events ++ [.ran step.name exit] })

def runStep (input : V) (results : JsMap String V) (step : StepDefinition V) :
    Drive (DriveEvent V) (CheckpointedStep V) := do
  let startedAt ← clockNow x.workflowId
  match x.skippedOutcome step input results startedAt with
  | .error error => throw error
  | .ok (some skipped) => x.checkpointStepOutcome skipped
  | .ok none =>
    let exit ← x.runBody step
    let settledAt ← clockNow x.workflowId
    x.checkpointStepOutcome (outcomeOfBody step.name startedAt (settledAt - startedAt) exit)

/-- `Promise.allSettled` over the steps of a wave. -/
def allSettled (input : V) (results : JsMap String V) : List (StepDefinition V) →
    Drive (DriveEvent V) (List (Except Thrown (CheckpointedStep V)))
  | [] => pure []
  | step :: rest => do
    let entry ← tryCatch (do let settled ← x.runStep input results step; pure (.ok settled))
      fun error => pure (.error error)
    let others ← allSettled input results rest
    pure (entry :: others)

/-- The status of the run, when every checkpoint of the wave read it: a cancelled one if any
    of them saw a cancel. -/
def waveStatus (settled : List (CheckpointedStep V)) : Option (Option WorkflowStatusSnapshot) :=
  if settled.all (·.runStatus.isSome) then
    some (settled.foldl (fun seen step =>
      match step.runStatus with
      | some (some status) => if seen.any (·.isCancelled) then seen else some status
      | _ => seen) none)
  else none

def settleWave (input : V) (results : JsMap String V) (readySteps : List (StepDefinition V)) :
    Drive (DriveEvent V) (WaveOutcome V) := do
  let settled ← x.allSettled input results readySteps
  match settled.mapM id with
  | .error error => throw error
  | .ok steps => pure ⟨steps.map (·.outcome), waveStatus steps⟩

/-! ## Folding a wave back in -/

structure DagProgress (V : Type) where
  results : JsMap String V
  tracker : ReadyTracker
  tripwireFire : Option (String × JsValue)

def firedReason (step : Option (StepDefinition V)) (metadata : Option Record) :
    Option JsValue :=
  if step.any (·.tripwire) ∧ (metadata.getD []).lookup "tripwireFired" = some (.bool true) then
    some (((metadata.getD []).lookup "reason").getD .undefined)
  else none

def foldOutcome (progress : DagProgress V) :
    SettledStep V → Except Thrown (DagProgress V)
  | .completed name result metadata _ _ _ => do
    let step := x.steps.byName name
    let decoded ← match step with
      | some step => step.codec.decode result
      | none => .ok result
    .ok {
      results := progress.results.set name decoded
      tracker := progress.tracker.markCompleted name
      tripwireFire :=
        progress.tripwireFire.or ((firedReason step metadata).map fun reason => (name, reason)) }
  | .failed .. => .ok progress
  | .suspended .. => .ok progress
  | .continueAsNew .. => .ok progress

/-- How the drive ends after a wave, if it does: a failure outranks control flow. -/
def waveExit (outcomes : List (SettledStep V)) (tripwireFire : Option (String × JsValue)) :
    Option (DagExecutionResult V) :=
  let failure := outcomes.findSome? fun
    | .failed _ error .. => some (DagExecutionResult.failed error)
    | _ => none
  let continued := outcomes.findSome? fun
    | .continueAsNew _ nextInput => some (DagExecutionResult.continueAsNew nextInput)
    | _ => none
  let suspended := outcomes.findSome? fun
    | .suspended _ error => some (DagExecutionResult.suspended error)
    | _ => none
  let fired := tripwireFire.map fun (stepName, reason) => .tripwire stepName reason
  ((failure.or continued).or suspended).or fired

def deadlineError : Thrown :=
  .error ("Workflow \"" ++ x.workflowId ++ "\" exceeded global deadline of " ++
    toString (x.timeoutMs.getD 0) ++ "ms") (some "WorkflowDeadlineError")

def deadlockError : Thrown :=
  .error "Deadlock: no steps are ready and none are running" (some "WorkflowError")

def pastDeadline (deadlineMs : Option Int) (now : Int) : Bool :=
  deadlineMs.any fun at_ => decide (now > at_)

def waves (input : V) (deadlineMs : Option Int) :
    (left wave : Nat) → (observed : Option (Option WorkflowStatusSnapshot)) → DagProgress V →
      Drive (DriveEvent V) (DagExecutionResult V)
  | 0, _, _, _ => pure .unfinished
  | left + 1, wave, observed, progress => do
    if progress.tracker.completedCount ≥ x.steps.list.length then
      pure (.success ((progress.results.get x.steps.lastStep.name).getD x.undefined))
    else
      -- Between waves a cancel that landed during the last one stops the run.
      (if wave > 0 then assertRunActive x.workflowId observed else pure ())
      let now ← clockNow x.workflowId
      if pastDeadline deadlineMs now then pure (.failed x.deadlineError)
      else if progress.tracker.ready.isEmpty then pure (.failed deadlockError)
      else
        let settled ← x.settleWave input progress.results
          (progress.tracker.ready.filterMap x.steps.byName)
        match settled.outcomes.foldlM x.foldOutcome { progress with tripwireFire := none } with
        | .error error => throw error
        | .ok folded =>
          match waveExit settled.outcomes folded.tripwireFire with
          | some exit => pure exit
          | none =>
            let now ← clockNow x.workflowId
            if pastDeadline deadlineMs now ∧
                folded.tracker.completedCount < x.steps.list.length then
              pure (.failed x.deadlineError)
            else waves input deadlineMs left (wave + 1) settled.runStatus folded

def decodedRow (row : StepState) : Except Thrown V :=
  step.codec.decode (x.json.loaded (row.result.getD .undefined))

def replayRow (results : JsMap String V) (entry : String × StepState) :
    Except Thrown (JsMap String V) :=
  if entry.2.status ≠ .completed then .ok results
  else
    match x.steps.byName entry.1 with
    | none => .ok results
    | some step => do
      let decoded ← x.decodedRow step entry.2
      .ok (results.set entry.1 decoded)

def storedResults (rows : List (String × StepState)) : Except Thrown (JsMap String V) :=
  rows.foldlM x.replayRow JsMap.empty

def executeWorkflowDag (input : V) (deadlineMs : Option Int) (state : Option WorkflowState) :
    Drive (DriveEvent V) (DagExecutionResult V) :=
  match x.storedResults ((state.map (·.steps.entries)).getD []) with
  | .error error => throw error
  | .ok results =>
    x.waves input deadlineMs (x.steps.list.length + 1) 0 none {
      results := results
      tracker := createReadyTracker x.steps.dagNodes results.keys
      tripwireFire := none }

end DagExecutionContext

end Promin.Durable

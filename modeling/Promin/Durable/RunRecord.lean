import Promin.ForStd.Cells
import Promin.Durable.Storage

/-!
# The step rows of a run, with their task arrays shared

`run-record.ts`: the step rows of one run as they lie in memory.  A row refers to its task
array; `writeTaskRow` changes the array in place while it owns it, and handing the rows out
to a caller shares them, after which the next write copies.  `CopiedRun` is the same run
with the task lists as values, copied on every write.
-/

namespace Promin.Durable

open JsMap

/-- A step row; its task array is known by identity. -/
structure StepRow where
  /-- All fields but `tasks`. -/
  state : StepState
  tasks : Option Nat

structure OwnedTasks where
  tasks : Nat
  position : JsMap Int Nat
  epoch : Nat

/-- The step rows of a run and the bookkeeping of their task arrays. -/
structure RunRecord where
  run : Int
  steps : JsMap String StepRow
  /-- Task arrays that may still be written in place, by step name. -/
  ownedTasks : JsMap String OwnedTasks
  /-- Bumped every time the step rows are handed out to a caller. -/
  handedOut : Nat
  arrays : Cells StepTaskState

/-- The task a write stores over `prev`. -/
def taskOf (prev : Option StepTaskState) (taskIndex : Int) (outcome : TaskOutcome) (now : Int) :
    StepTaskState where
  taskIndex := taskIndex
  status := match outcome with
    | .completed _ => .completed
    | .failed _ => .failed
  result := match outcome with
    | .completed result => some result
    | .failed _ => none
  error := match outcome with
    | .completed _ => none
    | .failed error => some error
  startedAt := (prev.bind (·.startedAt)).or (some now)
  completedAt := some now
  attempt := (prev.map (·.attempt)).getD 0 + 1

/-- The running row a first task write makes. -/
def mapRow (run : Int) (stepName : String) : StepState where
  stepName := stepName
  run := run
  status := .running
  dependsOn := []
  stepType := .map
  attempt := 1

def settledRow (run now : Int) (stepName : String) (existing : Option StepState)
    (status : StepStatus) (metadata : Option Record) (startedAt durationMs : Int) : StepState where
  stepName := stepName
  run := run
  status := status
  dependsOn := (existing.map (·.dependsOn)).getD []
  stepType := (existing.map (·.stepType)).getD .single
  metadata := metadata.or (existing.bind (·.metadata))
  startedAt := some startedAt
  completedAt := some now
  durationMs := some durationMs
  attempt := (existing.map (·.attempt)).getD 0 + 1

inductive StepWrite where
  | completed (result : JsValue) (metadata : Option Record) (startedAt durationMs : Int)
  | failed (error : String) (errorTag : Option String) (metadata : Option Record)
      (startedAt durationMs : Int)
  | suspended (u : StepUpdate)
  | compensated (status : StepCompensationStatus) (error : Option String)

/-- The row `writeStepResult`, `writeStepFailure`, `suspendWorkflow` or `saveStepCompensation`
stores, its tasks left out; `none` when it stores none. -/
def StepWrite.row (run now : Int) (stepName : String) (existing : Option StepState) :
    StepWrite → Option StepState
  | .completed result metadata startedAt durationMs =>
    some { settledRow run now stepName existing .completed metadata startedAt durationMs with
      result := some result }
  | .failed error errorTag metadata startedAt durationMs =>
    some { settledRow run now stepName existing .failed metadata startedAt durationMs with
      error := some error, errorTag := errorTag }
  | .suspended u => some {
      stepName := stepName
      run := run
      dependsOn := (existing.map (·.dependsOn)).getD []
      stepType := u.stepType.getD ((existing.map (·.stepType)).getD .single)
      attempt := (existing.map (·.attempt)).getD 1
      startedAt := (existing.bind (·.startedAt)).or (some now)
      status := u.status
      wakeAt := u.wakeAt
      signalName := u.signalName
      signalTimeoutAt := u.signalTimeoutAt
      signalJsonSchema := u.signalJsonSchema
      metadata := u.metadata }
  | .compensated status error => existing.map fun step =>
    { withoutCompensationLedger step with
      compensationStatus := some status, compensationError := error, compensatedAt := some now }

/-- Whether the new row takes over the tasks of the row it replaces. -/
def StepWrite.keepsTasks : StepWrite → Bool
  | .completed _ _ _ _ => true
  | .failed _ _ _ _ _ => true
  | .suspended _ => false
  | .compensated _ _ => true

def keptRow (step : StepState) : StepState :=
  if step.compensationStatus.isSome then withoutCompensationLedger step else step

/-! ## In memory -/

namespace RunRecord

def new : RunRecord where
  run := 1
  steps := empty
  ownedTasks := empty
  handedOut := 0
  arrays := Cells.empty

variable (r : RunRecord)

/-- Whether the step's array may be written in place. -/
def ownsTasks (stepName : String) (owned : OwnedTasks) : Bool :=
  owned.epoch == r.handedOut && (r.steps.get stepName).bind (·.tasks) == some owned.tasks

def copyTasks (stepName : String) : RunRecord × OwnedTasks :=
  let tasks := (((r.steps.get stepName).bind (·.tasks)).map r.arrays.read).getD []
  let owned : OwnedTasks := {
    tasks := r.arrays.size
    position := indexFrom (·.taskIndex) 0 empty tasks
    epoch := r.handedOut }
  ({ r with
      arrays := r.arrays.alloc tasks
      ownedTasks := r.ownedTasks.set stepName owned }, owned)

def openTasks (stepName : String) : RunRecord × OwnedTasks :=
  match r.ownedTasks.get stepName with
  | none => r.copyTasks stepName
  | some owned => if r.ownsTasks stepName owned then (r, owned) else r.copyTasks stepName

def putTask (stepName : String) (owned : OwnedTasks) (taskIndex : Int) (outcome : TaskOutcome)
    (now : Int) : RunRecord :=
  let tasks := r.arrays.read owned.tasks
  let at_ := owned.position.get taskIndex
  let task := taskOf (at_.bind fun i => tasks[i]?) taskIndex outcome now
  let r := match at_ with
    | some i => { r with arrays := r.arrays.write owned.tasks (tasks.set i task) }
    | none =>
      { r with
        arrays := r.arrays.write owned.tasks (tasks ++ [task])
        ownedTasks := r.ownedTasks.set stepName
          { owned with position := owned.position.set taskIndex tasks.length } }
  let state := ((r.steps.get stepName).map (·.state)).getD (mapRow r.run stepName)
  { r with steps := r.steps.set stepName ⟨state, some owned.tasks⟩ }

def writeTaskRow (stepName : String) (taskIndex : Int) (outcome : TaskOutcome) (now : Int) :
    RunRecord :=
  let opened := r.openTasks stepName
  opened.1.putTask stepName opened.2 taskIndex outcome now

def writeStep (stepName : String) (w : StepWrite) (now : Int) : RunRecord :=
  let existing := r.steps.get stepName
  match w.row r.run now stepName (existing.map (·.state)) with
  | none => r
  | some state =>
    let tasks := if w.keepsTasks then existing.bind (·.tasks) else none
    { r with steps := r.steps.set stepName ⟨state, tasks⟩ }

def resetSteps (stepNames : List String) : RunRecord :=
  let kept := stepNames.foldl (fun m stepName => m.delete stepName) r.steps
  { r with steps := kept.mapValues fun _ row => { row with state := keptRow row.state } }

def handOutSteps : RunRecord × JsMap String StepRow :=
  ({ r with handedOut := r.handedOut + 1 }, r.steps)

def startFreshRun : RunRecord × JsMap String StepRow :=
  let archived := r.handOutSteps
  ({ archived.1 with run := r.run + 1, steps := empty, ownedTasks := empty },
    archived.2)

end RunRecord

/-! ## Copied on every write -/

/-- The step rows of a run with their tasks as values. -/
structure CopiedRun where
  run : Int
  steps : JsMap String StepState

namespace CopiedRun

def new : CopiedRun := ⟨1, empty⟩

def writeTaskRow (c : CopiedRun) (stepName : String) (taskIndex : Int) (outcome : TaskOutcome)
    (now : Int) : CopiedRun :=
  let existing := c.steps.get stepName
  let tasks := (existing.bind (·.tasks)).getD []
  let at_ := (indexFrom (·.taskIndex) 0 empty tasks).get taskIndex
  let task := taskOf (at_.bind fun i => tasks[i]?) taskIndex outcome now
  let tasks := match at_ with
    | some i => tasks.set i task
    | none => tasks ++ [task]
  let step := existing.getD (mapRow c.run stepName)
  { c with steps := c.steps.set stepName { step with tasks := some tasks } }

def writeStep (c : CopiedRun) (stepName : String) (w : StepWrite) (now : Int) : CopiedRun :=
  let existing := c.steps.get stepName
  match w.row c.run now stepName (existing.map fun step => { step with tasks := none }) with
  | none => c
  | some state =>
    let tasks := if w.keepsTasks then existing.bind (·.tasks) else none
    { c with steps := c.steps.set stepName { state with tasks := tasks } }

def resetSteps (c : CopiedRun) (stepNames : List String) : CopiedRun :=
  let kept := stepNames.foldl (fun m stepName => m.delete stepName) c.steps
  { c with steps := kept.mapValues fun _ step => keptRow step }

def startFreshRun (c : CopiedRun) : CopiedRun := ⟨c.run + 1, empty⟩

end CopiedRun

/-! ## Calls -/

/-- A write to the rows of a run, or a look at them. -/
inductive RunCall where
  | writeTaskRow (stepName : String) (taskIndex : Int) (outcome : TaskOutcome) (now : Int)
  | writeStep (stepName : String) (w : StepWrite) (now : Int)
  | resetSteps (stepNames : List String)
  | startFreshRun
  | handOut

/-- The rows with their arrays on a heap. -/
def runRecord : Machine RunRecord RunCall (Option (JsMap String StepRow)) where
  step r o := match o with
    | .writeTaskRow stepName taskIndex outcome now =>
      (r.writeTaskRow stepName taskIndex outcome now, none)
    | .writeStep stepName w now => (r.writeStep stepName w now, none)
    | .resetSteps stepNames => (r.resetSteps stepNames, none)
    | .startFreshRun => (r.startFreshRun.1, some r.startFreshRun.2)
    | .handOut => (r.handOutSteps.1, some r.handOutSteps.2)

/-- The rows with every array copied. -/
def copiedRun : Machine CopiedRun RunCall (Option (JsMap String StepState)) where
  step c o := match o with
    | .writeTaskRow stepName taskIndex outcome now =>
      (c.writeTaskRow stepName taskIndex outcome now, none)
    | .writeStep stepName w now => (c.writeStep stepName w now, none)
    | .resetSteps stepNames => (c.resetSteps stepNames, none)
    | .startFreshRun => (c.startFreshRun, some c.steps)
    | .handOut => (c, some c.steps)

end Promin.Durable

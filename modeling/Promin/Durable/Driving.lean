import Promin.ForStd.CrashProne
import Promin.Durable.Storage
import Promin.Durable.WorkflowDag

/-!
# Driving a run

A driver works on a run through storage calls and the functions of its steps.  Each of
these is one atomic action; before any of them the driver can crash, time passes, and
the lock of the run changes hands.  Driver and storage read one clock.
-/

namespace Promin.Durable

/-- What happens to the lock of a run between two actions of its driver. -/
inductive LockTraffic where
  | advance (ms : Nat)
  | tryLock (lockDurationMs : Int) (attemptId : Option String)
  | releaseLock (guard_ : FenceGuard)
  | heartbeat (lockDurationMs : Int) (guard_ : FenceGuard)

/-- The storage call of another process. -/
def LockTraffic.op (workflowId : String) : LockTraffic → StorageOp
  | .advance ms => .advance ms
  | .tryLock ms attempt => .tryLock workflowId ms attempt
  | .releaseLock g => .releaseLock workflowId g
  | .heartbeat ms g => .heartbeat workflowId ms g

/-- What other processes do between two calls of this one. -/
abbrev Moment := List LockTraffic

/-- The storage, and what the drivers of the run did so far, newest last. -/
structure DriverWorld (event : Type) where
  storage : InMemoryWorkflowStorage
  events : List event

variable {event α : Type}

def interfere (workflowId : String) (moment : Moment) (w : DriverWorld event) :
    DriverWorld event :=
  { w with storage := storage.run w.storage (moment.map (·.op workflowId)) }

abbrev Drive (event α : Type) := Prog Moment (DriverWorld event) Thrown α

def StorageError.thrown : StorageError → Thrown
  | .fence e => .error e.message (some "FenceTokenMismatchError")
  | .error message => .error message none

def storageCall (workflowId : String) (events : List event)
    (call : InMemoryWorkflowStorage → InMemoryWorkflowStorage × Except StorageError α) :
    Drive event α :=
  Prog.act (interfere workflowId) fun w =>
    match call w.storage with
    | (s, .ok a) => (.ok a, { w with storage := s, events := w.events ++ events })
    | (s, .error e) => (.error e.thrown, { w with storage := s })

/-- `checkpointWrite`: three retries, then a `CheckpointError`. Control-flow exits are
    neither retried nor wrapped. The waits between the tries are the moments before them. -/
def checkpointWrite (workflowId operation stepName : String) (write : Drive event α) :
    Drive event α :=
  tryCatch (Prog.retry (fun e => !isControlFlowExit e) (fun _ => write) 0 3) fun error =>
    if isControlFlowExit error then throw error
    else throw (.error ("Workflow \"" ++ workflowId ++ "\": " ++ operation ++ " for step \"" ++
      stepName ++ "\" failed after 3 retries: " ++ errorMessage error) (some "CheckpointError"))

end Promin.Durable

/-!
## Resuming a run from a step

`WorkflowRunner.resume`: the step it names and every step that depends on it,
however indirectly, are reset in storage, and the run is driven again from what
is left.
-/

namespace Promin.Durable

/-- One pass over the steps. A step that depends on one in `downstream` joins it. -/
def growDownstream (steps : List DagNode) (downstream : List String) : List String :=
  steps.foldl (fun downstream step =>
    if downstream.contains step.name then downstream
    else if step.dependsOn.any downstream.contains then downstream ++ [step.name]
    else downstream) downstream

/-- Passes until none adds a step. Every pass that goes on adds one, so `fuel` is the number
    of steps. -/
def closeDownstream (steps : List DagNode) : (fuel : Nat) → List String → List String
  | 0, downstream => downstream
  | fuel + 1, downstream =>
    let grown := growDownstream steps downstream
    if grown.length = downstream.length then downstream else closeDownstream steps fuel grown

/-- The steps `resume` resets. -/
def downstreamOf (steps : List DagNode) (fromStep : String) : List String :=
  closeDownstream steps steps.length [fromStep]

namespace InMemoryWorkflowStorage

/-- `resume` up to the re-drive, which it answers the input for. -/
def resume (s : InMemoryWorkflowStorage) (steps : List DagNode) (workflowName workflowId : String)
    (fromStep : String) : InMemoryWorkflowStorage × Except StorageError JsValue :=
  match s.workflows.get workflowId with
  | none => (s, .error (.error ("Cannot resume workflow \"" ++ workflowId ++
      "\" — not found in storage.")))
  | some state =>
    if !steps.any (·.name == fromStep) then
      (s, .error (.error ("Cannot resume \"" ++ workflowId ++ "\" — step \"" ++ fromStep ++
        "\" not found on workflow \"" ++ workflowName ++ "\". Known steps: " ++
        ", ".intercalate (steps.map (·.name)) ++ ".")))
    else
      match s.resetSteps workflowId (downstreamOf steps fromStep) with
      | (s, .ok ()) => (s, .ok state.input)
      | (s, .error e) => (s, .error e)

end InMemoryWorkflowStorage

end Promin.Durable

import Promin.Durable.Driving

/-!
# Loop steps

`.dowhile()` and `.dountil()`: each iteration is a step row `<name>.iter.<n>`;
on resume the completed iteration rows are replayed and the loop continues at
the first missing one.
-/

namespace Promin.Durable

variable {α : Type}

/-- A loop step. The body is given by its outcomes: it depends on the iteration only. -/
structure LoopStep (α : Type) where
  name : String
  body : Nat → Except Thrown α
  /-- `true` runs another iteration. -/
  keepGoing : α → Nat → Bool
  maxIterations : Nat
  positive : 1 ≤ maxIterations
  codec : Codec α

def defaultMaxIterations : Int := 100

def createLoopStep (name : String) (body : Nat → Except Thrown α) (keepGoing : α → Nat → Bool)
    (maxIterations : Option Int) (codec : Codec α) : Except Thrown (LoopStep α) :=
  if h : maxIterations.getD defaultMaxIterations < 1 then
    .error (.error (".dowhile / .dountil(\"" ++ name ++ "\", ...): maxIterations must be >= 1")
      (some "WorkflowError"))
  else
    .ok {
      name := name, body := body, keepGoing := keepGoing, codec := codec
      maxIterations := (maxIterations.getD defaultMaxIterations).toNat
      positive := by omega }

/-- The run a step is executed in. -/
structure StepExec where
  workflowId : String
  guard_ : FenceGuard
  /-- Whether the storage keeps step attempts. -/
  stepAttempts : Bool

namespace LoopStep

/-- What replaying the stored iterations comes to. -/
inductive Replayed (α : Type) where
  | stopped (result : α)
  | missing (iter : Nat)

variable (l : LoopStep α) (x : StepExec)

def iterationName (iter : Nat) : String := l.name ++ ".iter." ++ toString iter

/-- Replay the completed rows from `iter` on, while there are iterations `left`. -/
def replay (steps : JsMap String StepState) (iter : Nat) : (left : Nat) → Replayed α
  | 0 => .missing iter
  | left + 1 =>
    match steps.get (l.iterationName iter) with
    | none => .missing iter
    | some row =>
      if row.status ≠ .completed then .missing iter
      else
        let result := l.codec.decode (row.result.getD .undefined)
        -- The previous run already decided to stop here.
        if l.keepGoing result iter then replay steps (iter + 1) left else .stopped result

def now : Drive Nat Int := storageCall x.workflowId [] fun s => (s, .ok s.now)

def recordIteration (iter : Nat) (startedAt : Int) (outcome : StepOutcome) : Drive Nat Unit := do
  let durationMs := (← now x) - startedAt
  storageCall x.workflowId [] fun s =>
    match outcome with
    | .completed result => s.saveStepResult {
        workflowId := x.workflowId, stepName := l.iterationName iter, result := result
        durationMs := durationMs, startedAt := startedAt } x.guard_
    | .failed error _ => s.saveStepFailure {
        workflowId := x.workflowId, stepName := l.iterationName iter, error := error
        durationMs := durationMs, startedAt := startedAt } x.guard_
  if x.stepAttempts then
    storageCall x.workflowId [] fun s => s.saveStepAttempt {
      workflowId := x.workflowId, stepName := l.iterationName iter, attempt := 1
      type := .execution
      completed := match outcome with
        | .completed _ => true
        | .failed _ _ => false
      result := match outcome with
        | .completed result => some result
        | .failed _ _ => none
      error := match outcome with
        | .completed _ => none
        | .failed error _ => some error
      durationMs := durationMs, startedAt := startedAt, completedAt := s.now } x.guard_
  else pure ()

def callBody (iter : Nat) : Drive Nat (Except Thrown α) :=
  storageCall x.workflowId [iter] fun s => (s, .ok (l.body iter))

def runIteration (iter : Nat) : Drive Nat α := do
  let startedAt ← now x
  match ← l.callBody x iter with
  | .ok result =>
    l.recordIteration x iter startedAt (.completed (l.codec.encode result))
    pure result
  | .error e =>
    l.recordIteration x iter startedAt (.failed (errorMessage e) none)
    throw e

def limitExceeded : Thrown :=
  .error ("Loop \"" ++ l.name ++ "\" exceeded " ++ toString l.maxIterations ++
    " iterations without converging") (some "LoopLimitExceededError")

/-- Run iterations from `iter` on, while there are `left`. -/
def loop (iter : Nat) : (left : Nat) → Drive Nat α
  | 0 => throw l.limitExceeded
  | left + 1 => do
    let result ← l.runIteration x iter
    if l.keepGoing result iter then loop (iter + 1) left else pure result

def execute : Drive Nat α := do
  let state ← storageCall x.workflowId [] fun s =>
    (s, .ok ((s.workflows.get x.workflowId).map (·.toWorkflowState)))
  match state with
  | none => l.loop x 0 l.maxIterations
  | some state =>
    match l.replay state.steps 0 l.maxIterations with
    | .stopped result => pure result
    | .missing iter => l.loop x iter (l.maxIterations - iter)

end LoopStep

end Promin.Durable

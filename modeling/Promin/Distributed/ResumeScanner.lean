import Promin.Durable.Scanners

/-!
# The resume scanner

`ResumeScanner`: a scan asks for due runs page by page and hands each run to a
bounded pool of resumes.
-/

namespace Promin.Distributed

open Durable (WorkflowWakeup InMemoryWorkflowStorage)

/-- What a scanner does with a due run: drive it here, or hand it over. -/
inductive ScannerTarget where
  | runner
  | wake

structure ResumeScannerConfig where
  name : String
  target : ScannerTarget
  leaderElection : Bool := false
  resumeConcurrency : Option Int := none

def defaultResumeConcurrency : Int := 10

def ResumeScannerConfig.concurrency (config : ResumeScannerConfig) : Nat :=
  (max 1 (config.resumeConcurrency.getD defaultResumeConcurrency)).toNat

structure ScanPage where
  rows : List WorkflowWakeup
  done : Bool

/-- The `find` of a scanner over what it looks at. A due run after the cursor is on the page,
    or the page is not the last one and ends before it. -/
structure DueFinder (E : Type) where
  find : E → (afterWorkflowId : Option String) → ScanPage
  due : E → (workflowId : String) → Prop
  covers : ∀ env after id, due env id → (∀ cursor ∈ after, cursor < id) →
    (∃ row ∈ (find env after).rows, row.workflowId = id) ∨
      ((find env after).done = false ∧
        ∃ last ∈ (find env after).rows.getLast?, last.workflowId < id)

structure ScannerResume where
  workflowId : String
  /-- Its promise is settled; what `finally` runs is still to come. -/
  settled : Bool

/-- The rows of a page after the current one, and what is read of the page after them. -/
structure PageRest where
  rows : List WorkflowWakeup
  lastId : String
  done : Bool
  deriving DecidableEq

inductive ScanEnd where
  | completed
  | stopped
  | notLeader
  /-- Something it awaited was rejected. -/
  | failed
  deriving DecidableEq

inductive ScanPhase where
  /-- No scan is in flight. -/
  | idle (last : Option ScanEnd)
  | acquiring (afterWorkflowId : Option String)
  | finding (afterWorkflowId : Option String)
  | resolving (row : WorkflowWakeup) (rest : PageRest)
  /-- The scan is among the slot waiters until it is woken. -/
  | waiting (row : WorkflowWakeup) (woken : Bool) (rest : PageRest)
  /-- A `dispatch` that has returned. -/
  | between (rest : PageRest)
  deriving DecidableEq

structure ResumeScanner (E : Type) where
  /-- What `find` looks at. -/
  env : E
  stopRequested : Bool
  inFlight : JsMap String Nat
  resumes : JsMap Nat ScannerResume
  nextResume : Nat
  unknownReported : List String
  /-- Calls of `onError` about runs without a definition. -/
  errors : List (String × String)
  scan : ScanPhase

inductive DispatchOutcome where
  | dispatched
  | alreadyInFlight
  | unknownWorkflow
  deriving DecidableEq

/-- What became of a row. -/
structure Dispatched where
  workflowId : String
  outcome : DispatchOutcome
  deriving DecidableEq

inductive ResumeScannerOp (E : Type) where
  /-- The poll loop runs a scan. -/
  | tick
  /-- The answer of `tryAcquire`; none when it was rejected. -/
  | leaseAnswer (acquired : Option Bool)
  | found
  | findFails
  /-- Whether `resolveWorkflow` knew a definition; none when it was rejected. -/
  | resolved (known : Option Bool)
  /-- The scan goes on from an await that is over. -/
  | continues
  | settles (resume : Nat)
  /-- What `finally` runs after a resume. -/
  | releases (resume : Nat)
  | stop
  | start
  /-- The runs that are due change. -/
  | moves (env : E)

namespace ResumeScanner

variable {E : Type} (config : ResumeScannerConfig)

def new (env : E) : ResumeScanner E where
  env := env
  stopRequested := false
  inFlight := JsMap.empty
  resumes := JsMap.empty
  nextResume := 0
  unknownReported := []
  errors := []
  scan := .idle none

def awaits (l : ResumeScanner E) (phase : ScanPhase) : ResumeScanner E × Option Dispatched :=
  ({ l with scan := phase }, none)

def returns (l : ResumeScanner E) (row : WorkflowWakeup) (outcome : DispatchOutcome)
    (rest : PageRest) : ResumeScanner E × Option Dispatched :=
  ({ l with scan := .between rest }, some ⟨row.workflowId, outcome⟩)

def startResume (l : ResumeScanner E) (workflowId : String) : ResumeScanner E :=
  { l with
    inFlight := l.inFlight.set workflowId l.nextResume
    resumes := l.resumes.set l.nextResume { workflowId := workflowId, settled := false }
    nextResume := l.nextResume + 1 }

def takeSlot (l : ResumeScanner E) (row : WorkflowWakeup) (rest : PageRest) :
    ResumeScanner E × Option Dispatched :=
  if l.inFlight.size ≥ config.concurrency then l.awaits (.waiting row false rest)
  else if l.inFlight.has row.workflowId then l.returns row .alreadyInFlight rest
  else (l.startResume row.workflowId).returns row .dispatched rest

def dispatch (l : ResumeScanner E) (row : WorkflowWakeup) (rest : PageRest) :
    ResumeScanner E × Option Dispatched :=
  if l.inFlight.has row.workflowId then l.returns row .alreadyInFlight rest
  else
    match config.target with
    | .runner => l.awaits (.resolving row rest)
    | .wake => l.takeSlot config row rest

/-- The head of the `while` loop. -/
def loopTop (l : ResumeScanner E) (after : Option String) : ResumeScanner E × Option Dispatched :=
  if l.stopRequested then l.awaits (.idle (some .stopped))
  else if after.isSome && config.leaderElection then l.awaits (.acquiring after)
  else l.awaits (.finding after)

def nextRow (l : ResumeScanner E) (rest : PageRest) : ResumeScanner E × Option Dispatched :=
  match rest.rows with
  | [] =>
    if rest.done then l.awaits (.idle (some .completed)) else l.loopTop config (some rest.lastId)
  | row :: rows =>
    if l.stopRequested then l.awaits (.idle (some .stopped))
    else l.dispatch config row { rest with rows := rows }

def onPage (l : ResumeScanner E) (page : ScanPage) : ResumeScanner E × Option Dispatched :=
  match page.rows.getLast? with
  | none => l.awaits (.idle (some .completed))
  | some last =>
    l.nextRow config { rows := page.rows, lastId := last.workflowId, done := page.done }

def unknownKey (row : WorkflowWakeup) : String :=
  row.workflowName ++ "@" ++ row.version.getD ""

def unknownMessage (row : WorkflowWakeup) : String :=
  let version := match row.version with
    | some version => " version \"" ++ version ++ "\""
    | none => ""
  "[" ++ config.name ++ "] no definition for workflow \"" ++ row.workflowName ++ "\"" ++ version ++
    "; its due runs are skipped until resolveWorkflow knows it"

def reportUnknown (l : ResumeScanner E) (row : WorkflowWakeup) : ResumeScanner E :=
  if unknownKey row ∈ l.unknownReported then l
  else
    { l with
      unknownReported := l.unknownReported ++ [unknownKey row]
      errors := l.errors ++ [(row.workflowId, unknownMessage config row)] }

def wakeWaiters (scan : ScanPhase) : ScanPhase :=
  match scan with
  | .waiting row _ rest => .waiting row true rest
  | other => other

def leaseAnswer (l : ResumeScanner E) (acquired : Option Bool) :
    ResumeScanner E × Option Dispatched :=
  match l.scan with
  | .acquiring after =>
    match acquired with
    | none => l.awaits (.idle (some .failed))
    | some false => l.awaits (.idle (some .notLeader))
    | some true =>
      match after with
      | none => l.loopTop config none
      | some _ => l.awaits (.finding after)
  | _ => (l, none)

def resolved (l : ResumeScanner E) (known : Option Bool) : ResumeScanner E × Option Dispatched :=
  match l.scan with
  | .resolving row rest =>
    match known with
    | none => l.awaits (.idle (some .failed))
    | some false => (l.reportUnknown config row).returns row .unknownWorkflow rest
    | some true => l.takeSlot config row rest
  | _ => (l, none)

def continues (l : ResumeScanner E) : ResumeScanner E × Option Dispatched :=
  match l.scan with
  | .between rest => l.nextRow config rest
  | .waiting row true rest => l.takeSlot config row rest
  | _ => (l, none)

/-- What `finally` runs: the run is not in flight any more, and waiters are woken. -/
def releases (l : ResumeScanner E) (resume : Nat) : ResumeScanner E :=
  match l.resumes.get resume with
  | some ⟨workflowId, true⟩ =>
    { l with
      inFlight := l.inFlight.delete workflowId
      resumes := l.resumes.delete resume
      scan := wakeWaiters l.scan }
  | _ => l

def settles (l : ResumeScanner E) (resume : Nat) : ResumeScanner E :=
  match l.resumes.get resume with
  | some r => { l with resumes := l.resumes.set resume { r with settled := true } }
  | none => l

def step (finder : DueFinder E) (l : ResumeScanner E) (o : ResumeScannerOp E) :
    ResumeScanner E × Option Dispatched :=
  match o with
  | .tick =>
    match l.scan with
    | .idle _ => if config.leaderElection then l.awaits (.acquiring none) else l.loopTop config none
    | _ => (l, none)
  | .leaseAnswer acquired => l.leaseAnswer config acquired
  | .found =>
    match l.scan with
    | .finding after => l.onPage config (finder.find l.env after)
    | _ => (l, none)
  | .findFails =>
    match l.scan with
    | .finding _ => l.awaits (.idle (some .failed))
    | _ => (l, none)
  | .resolved known => l.resolved config known
  | .continues => l.continues config
  | .settles resume => (l.settles resume, none)
  | .releases resume => (l.releases resume, none)
  | .stop => ({ l with stopRequested := true }, none)
  | .start =>
    match l.scan with
    | .idle _ => ({ l with stopRequested := false }, none)
    | _ => (l, none)
  | .moves env => ({ l with env := env }, none)

end ResumeScanner

def resumeScanner {E : Type} (config : ResumeScannerConfig) (finder : DueFinder E) :
    Machine (ResumeScanner E) (ResumeScannerOp E) (Option Dispatched) where
  step l o := l.step config finder o

end Promin.Distributed

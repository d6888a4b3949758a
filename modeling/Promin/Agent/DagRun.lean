import Promin.Agent.Budget
import Promin.Data.Csv
import Promin.ForStd.Kahn
import Promin.ForStd.Machine
import Promin.Shared.JsonValue

/-!
# Runs of an agentic DAG

One run of `createDagWorkflow`: the branches of the nodes go on one at a time,
each up to what it waits for.
-/

namespace Promin.Agent

open Function

inductive NodeInputSource where
  | initial (path : String)
  | node (nodeId path : String)
  | literal (value : JsValue)

inductive OnError where
  | abort
  | skip
  deriving DecidableEq

/-- A node with its named inputs. -/
structure DagNode where
  id : String
  inputs : List (String × NodeInputSource) := []
  onError : OnError := .abort

/-- `condition`: the path that is compared, and the value. -/
structure DagEdge where
  source : String
  target : String
  condition : Option (String × String) := none

structure DagGraph where
  nodes : List DagNode
  edges : List DagEdge := []
  entry : List String
  terminals : List String

namespace DagGraph

variable (dag : DagGraph)

def ids : List String := dag.nodes.map (·.id)

def incoming (id : String) : List DagEdge := dag.edges.filter (·.target = id)

def outgoing (id : String) : List String := (dag.edges.filter (·.source = id)).map (·.target)

/-- There is an edge from `a` to `b`. -/
def Precedes (a b : String) : Prop := ∃ e ∈ dag.edges, e.source = a ∧ e.target = b

/-- What `validateDag` lets through. -/
structure Valid : Prop where
  ids_nodup : dag.ids.Nodup
  entry_mem : ∀ id ∈ dag.entry, id ∈ dag.ids
  terminals_mem : ∀ id ∈ dag.terminals, id ∈ dag.ids
  endpoints : ∀ e ∈ dag.edges, e.source ∈ dag.ids ∧ e.target ∈ dag.ids
  acyclic : ∀ id, ¬ Relation.TransGen dag.Precedes id id
  reachable : ∀ id ∈ dag.ids, ∃ first ∈ dag.entry, Relation.ReflTransGen dag.Precedes first id
  upstream : ∀ node ∈ dag.nodes, ∀ field nodeId path, (field, .node nodeId path) ∈ node.inputs →
    Relation.TransGen dag.Precedes nodeId node.id
  entry_inputs : ∀ node ∈ dag.nodes, node.id ∈ dag.entry → ∀ field nodeId path,
    (field, NodeInputSource.node nodeId path) ∉ node.inputs

def topologicalOrder : List String :=
  let inDegree := fun id => ((dag.incoming id).length : Int)
  Kahn.drain dag.outgoing List.next? dag.nodes.length
    ⟨inDegree, dag.ids.filter fun id => inDegree id = 0⟩

end DagGraph

/-! ## The helpers

Paths and node ids name own members: what an object inherits from `Object.prototype`, such as
`toString`, is left out. -/

/-- `Number.parseInt(part, 10)`, of an index that can be in an array. -/
def parseIndex (part : String) : Option Nat :=
  let number := part.toList.dropWhile fun c =>
    c.toNat < 0x10000 && Data.CodeUnits.isSpace c.toNat.toUInt16
  let digits := (if number.head? = some '-' ∨ number.head? = some '+' then number.tail
    else number).takeWhile Char.isDigit
  let value := digits.foldl (fun n c => 10 * n + (c.toNat - '0'.toNat)) 0
  if digits = [] ∨ (number.head? = some '-' ∧ value ≠ 0) then none else some value

def pickPart (cur : JsValue) (part : String) : JsValue :=
  match cur with
  | .arr items => ((parseIndex part).bind fun i => items[i]?).getD .undefined
  | .obj members => (JsMap.lookup part members).getD .undefined
  | _ => .undefined

/-- Dotted-path getter; a part of nothing is `undefined`. -/
def pickPath (value : JsValue) (path : String) : JsValue :=
  if path = "" ∨ path = "$" then value else (path.splitOn ".").foldl pickPart value

/-- How one node settled. -/
inductive NodeState where
  | output (value : JsValue)
  | error (error : String)
  | skipped
  | notStarted

abbrev NodeStates := String → Option NodeState

def blocks (states : NodeStates) (e : DagEdge) : Bool :=
  match states e.source with
  | some .skipped => true
  | some (.error _) => true
  | upstream =>
    let output := match upstream with | some (.output value) => value | _ => .undefined
    match e.condition with
    | none => false
    | some (path, value) => decide (pickPath output path ≠ .str value)

def checkBlockers (states : NodeStates) (incomingEdges : List DagEdge) : Bool :=
  incomingEdges.any (blocks states)

def resolveSource (initial : JsValue) (states : NodeStates) :
    NodeInputSource → Except String JsValue
  | .initial path => .ok (pickPath initial path)
  | .node nodeId path =>
    match states nodeId with
    | some (.output value) => .ok (pickPath value path)
    | _ => .error ("Upstream node \"" ++ nodeId ++ "\" has no output yet")
  | .literal value => .ok value

def resolveNodeInputs (node : DagNode) (initial : JsValue) (states : NodeStates) :
    Except String (List (String × JsValue)) :=
  node.inputs.mapM fun (field, src) => (resolveSource initial states src).map (field, ·)

/-- What a run is started with. -/
structure DagInput where
  dag : DagGraph
  initialInput : JsValue
  budget : Option TurnBudget

structure NodeStart where
  start : Bool
  budget : Option TurnBudget

structure NodeOutcome where
  result : Except String JsValue
  spend : Option BudgetUsage

/-- The state of a node that ended so. -/
def NodeOutcome.state (outcome : NodeOutcome) : NodeState :=
  match outcome.result with
  | .ok value => .output value
  | .error error => .error error

structure DagJournal where
  starts : String → Option NodeStart := fun _ => none
  outcomes : String → Option NodeOutcome := fun _ => none

/-- The variables of one drive of the run. -/
structure DagDrive where
  states : NodeStates := fun _ => none
  held : String → Option TurnBudget := fun _ => none
  spent : BudgetUsage := EMPTY_USAGE
  /-- What a start activity has answered that is not journaled yet. -/
  computed : String → Option NodeStart := fun _ => none
  aborted : Bool := false

structure DagRun where
  journal : DagJournal := {}
  drive : DagDrive := {}
  /-- The nodes that have settled in some drive, this one or an earlier one. -/
  everSettled : String → Bool := fun _ => false

/-- How far a branch gets before the journal decides. -/
inductive Gate where
  | waiting
  | settled (state : NodeState)
  | ready

namespace DagInput

variable (input : DagInput)

def order : List String := input.dag.topologicalOrder

def nodeById (id : String) : DagNode := (input.dag.nodes.find? (·.id = id)).getD { id }

/-- Downstream of an abort, or of a node that never started. -/
def stops (states : NodeStates) (e : DagEdge) : Bool :=
  match states e.source with
  | some .notStarted => true
  | some (.error _) => (input.nodeById e.source).onError = .abort
  | _ => false

def gate (states : NodeStates) (id : String) : Gate :=
  let incoming := input.dag.incoming id
  if incoming.any fun e => (states e.source).isNone then .waiting
  else if incoming.any (input.stops states) then .settled .notStarted
  else if checkBlockers states incoming then .settled .skipped
  else match resolveNodeInputs (input.nodeById id) input.initialInput states with
    | .error message => .settled (.error message)
    | .ok _ => .ready

/-- A starting node's share: what is free, split with the nodes not started yet. -/
def shareFor (drive : DagDrive) : Option TurnBudget :=
  input.budget.map fun runBudget =>
    let free := (input.order.filterMap drive.held).foldl subtractBudget
      (remainingBudget runBudget drive.spent)
    let waiting := input.order.countP fun id =>
      (drive.states id).isNone && (drive.held id).isNone
    shareOfBudget free (max 1 waiting)

/-- A node has its state; an error aborts the run where the node says so. -/
def settle (run : DagRun) (id : String) (state : NodeState) : DagRun where
  journal := run.journal
  drive := { run.drive with
    states := update run.drive.states id (some state)
    aborted := run.drive.aborted || match state with
      | .error _ => decide ((input.nodeById id).onError = .abort)
      | _ => false }
  everSettled := update run.everSettled id true

def nodeBranch (run : DagRun) (id : String) : DagRun :=
  if id ∉ input.order ∨ (run.drive.states id).isSome then run
  else match input.gate run.drive.states id with
  | .waiting => run
  | .settled state => input.settle run id state
  | .ready =>
    match run.journal.starts id with
    | none =>
      match run.drive.computed id with
      | some _ => run
      | none =>
        let answer : NodeStart :=
          if run.drive.aborted then ⟨false, none⟩ else ⟨true, input.shareFor run.drive⟩
        { run with drive := { run.drive with
          computed := update run.drive.computed id (some answer) } }
    | some ⟨false, _⟩ => input.settle run id .notStarted
    | some ⟨true, share⟩ =>
      match share, run.drive.held id, run.journal.outcomes id with
      | some share, none, _ =>
        { run with drive := { run.drive with
          held := update run.drive.held id (some share) } }
      | _, _, none => run
      | _, _, some outcome =>
        input.settle { run with drive := { run.drive with
          held := update run.drive.held id none
          spent := match outcome.spend with
            | some spend => addUsage run.drive.spent spend
            | none => run.drive.spent } } id outcome.state

end DagInput

/-- What moves a run of the graph on. -/
inductive DagOp where
  | branch (id : String)
  | journalStart (id : String)
  | journalOutcome (id : String) (outcome : NodeOutcome)
  /-- The drive is lost, and the run is driven again. -/
  | crash

namespace DagInput

variable (input : DagInput)

def step (run : DagRun) : DagOp → DagRun
  | .branch id => input.nodeBranch run id
  | .journalStart id =>
    match run.drive.computed id with
    | none => run
    | some start =>
      { run with
        journal := { run.journal with starts := update run.journal.starts id (some start) }
        drive := { run.drive with computed := update run.drive.computed id none } }
  | .journalOutcome id outcome =>
    match run.journal.starts id, run.journal.outcomes id with
    | some ⟨true, _⟩, none =>
      { run with journal := { run.journal with
        outcomes := update run.journal.outcomes id (some outcome) } }
    | _, _ => run
  | .crash => { run with drive := {} }

/-- Runs of the graph, across crashes. -/
def runs : Machine DagRun DagOp Unit where
  step run op := (input.step run op, ())

end DagInput

end Promin.Agent

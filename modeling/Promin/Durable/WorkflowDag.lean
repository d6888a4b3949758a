import Promin.ForStd.JsMap
import Promin.ForStd.Kahn

/-!
# Workflow DAGs

The nodes a run is ordered by: every step under its name, with the names of the
steps it depends on.
-/

namespace Promin.Durable

structure DagNode where
  name : String
  dependsOn : List String
  deriving DecidableEq

/-- The node called `a` names `b` among its dependencies. -/
def DependsOn (nodes : List DagNode) (a b : String) : Prop :=
  ∃ node ∈ nodes, node.name = a ∧ b ∈ node.dependsOn

structure DagOk (nodes : List DagNode) : Prop where
  names : (nodes.map (·.name)).Nodup
  acyclic : ∀ n, ¬ Relation.TransGen (DependsOn nodes) n n

theorem acyclic_of_rank {nodes : List DagNode} (rank : String → Nat)
    (h : ∀ a b, DependsOn nodes a b → rank b < rank a) (n : String) :
    ¬ Relation.TransGen (DependsOn nodes) n n := by
  have hless : ∀ a b, Relation.TransGen (DependsOn nodes) a b → rank b < rank a := by
    intro a b hreach
    induction hreach with
    | single hedge => exact h _ _ hedge
    | tail _ hedge ih => exact Nat.lt_trans (h _ _ hedge) ih
  exact fun hn => Nat.lt_irrefl _ (hless n n hn)

/-! ## Sorting -/

/-- The nodes that depend on `name`, once for each time they name it. -/
def dependentsOf (nodes : List DagNode) (name : String) : List String :=
  nodes.flatMap fun node => (node.dependsOn.filter (· = name)).map fun _ => node.name

def unknownDependency (nodes : List DagNode) : Option (String × String) :=
  nodes.findSome? fun node =>
    (node.dependsOn.find? fun dep => !nodes.any (·.name = dep)).map fun dep => (node.name, dep)

/-- The names in dependency order, or the message of the `WorkflowError`. -/
def topologicalSort (nodes : List DagNode) : Except String (List String) :=
  match unknownDependency nodes with
  | some (name, dep) =>
    .error ("Step \"" ++ name ++ "\" depends on unknown step \"" ++ dep ++ "\"")
  | none =>
    let inDegree : JsMap String Int :=
      JsMap.collect (fun node => some (node.name, (node.dependsOn.length : Int))) nodes
    let degree := fun name => (inDegree.get name).getD 0
    let sorted := Kahn.drain (dependentsOf nodes) List.next? nodes.length
      ⟨degree, inDegree.keys.filter fun name => degree name = 0⟩
    if sorted.length ≠ nodes.length then
      let remaining := (nodes.filter fun n => !sorted.contains n.name).map (·.name)
      .error ("Cycle detected in workflow DAG involving steps: " ++ ", ".intercalate remaining)
    else .ok sorted

/-! ## The ready set -/

def computeReadySet (nodes : List DagNode) (completed running : String → Bool) : List String :=
  (nodes.filter fun node =>
    !(completed node.name || running node.name) && node.dependsOn.all completed).map (·.name)

end Promin.Durable

/-!
## The ready tracker

Which nodes of a DAG are ready as nodes complete, without rescanning the graph:
each node keeps a count of its unfinished dependencies, and completing a node
visits its dependents only.
-/

namespace Promin.Durable

structure ReadyTracker where
  nodes : List DagNode
  indexOf : JsMap String Nat
  pendingDeps : List Int
  dependents : List (List Nat)
  done : List Bool
  readyNow : List Nat
  completedCount : Nat

namespace ReadyTracker

/-- Positions of the nodes that depend on the node at `d`, once for each time they name it. -/
def dependentsAt (nodes : List DagNode) (indexOf : JsMap String Nat) (d : Nat) : List Nat :=
  nodes.zipIdx.flatMap fun (node, i) =>
    (node.dependsOn.filter fun dep => indexOf.get dep = some d).map fun _ => i

def start (nodes : List DagNode) : ReadyTracker :=
  let indexOf := JsMap.collect (fun (node, i) => some (node.name, i)) nodes.zipIdx
  let pendingDeps := nodes.map fun node => (node.dependsOn.length : Int)
  { nodes := nodes
    indexOf := indexOf
    pendingDeps := pendingDeps
    dependents := (List.range nodes.length).map (dependentsAt nodes indexOf)
    done := nodes.map fun _ => false
    readyNow := (List.range nodes.length).filter fun i => pendingDeps.getD i 0 = 0
    completedCount := 0 }

/-- One unfinished dependency less for the node at `dependent`. -/
def release (t : ReadyTracker) (dependent : Nat) : ReadyTracker :=
  let pending := t.pendingDeps.getD dependent 0 - 1
  { t with
    pendingDeps := t.pendingDeps.set dependent pending
    readyNow := if pending = 0 ∧ t.done.getD dependent false = false then
        t.readyNow.insert dependent
      else t.readyNow }

/-- Unknown and already completed names are ignored. -/
def markCompleted (t : ReadyTracker) (name : String) : ReadyTracker :=
  match t.indexOf.get name with
  | none => t
  | some i =>
    if t.done.getD i false then t
    else
      (t.dependents.getD i []).foldl release
        { t with
          done := t.done.set i true
          completedCount := t.completedCount + 1
          readyNow := t.readyNow.erase i }

/-- `ready()`, in definition order. -/
def ready (t : ReadyTracker) : List String :=
  (t.readyNow.insertionSort (· ≤ ·)).filterMap fun i => (t.nodes[i]?).map (·.name)

end ReadyTracker

def createReadyTracker (nodes : List DagNode) (completed : List String) : ReadyTracker :=
  completed.foldl ReadyTracker.markCompleted (.start nodes)

end Promin.Durable

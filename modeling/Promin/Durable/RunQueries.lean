import Promin.ForStd.StableSort
import Promin.Durable.Storage
import Promin.Shared.JsonValue

/-!
# Listing runs in memory

`listWorkflows` of `InMemoryWorkflowStorage`: the rows of the namespace that pass the filter,
in the order asked for, from an offset on.
-/

/-!
## Metadata filters

`workflowMetadataMatches`: the filter of `listWorkflows({ metadata })` as the storages apply
it to a loaded row.
-/

namespace Promin.Durable

mutual

/-- `deepEqual`. A date is an object without keys of its own. -/
def deepEqual : (a b : JsValue) → Bool
  | .undefined, .undefined => true
  | .null, .null => true
  | .bool x, .bool y => x == y
  | .num x, .num y => x == y
  | .str x, .str y => x == y
  | .arr xs, .arr ys => deepEqualItems xs ys
  | .obj xs, .obj ys => xs.length == ys.length && deepEqualMembers xs ys
  | .obj xs, .date _ => xs.isEmpty
  | .date _, .obj ys => ys.isEmpty
  | .date _, .date _ => true
  | _, _ => false

/-- `deepEqual` at every index of arrays of one length. -/
def deepEqualItems : (xs ys : List JsValue) → Bool
  | [], [] => true
  | x :: xs, y :: ys => deepEqual x y && deepEqualItems xs ys
  | _, _ => false

/-- `deepEqual` at every key of the first object. -/
def deepEqualMembers : (xs ys : List (String × JsValue)) → Bool
  | [], _ => true
  | (k, x) :: xs, ys =>
    deepEqual x ((JsMap.lookup k ys).getD .undefined) && deepEqualMembers xs ys

end

def workflowMetadataMatches (actual : Option Record) (filter : Record) : Bool :=
  if filter.isEmpty then true
  else
    match actual with
    | none => false
    | some actual => filter.all fun e =>
        deepEqual ((JsMap.lookup e.1 actual).getD .undefined) e.2

end Promin.Durable

namespace Promin.Durable

inductive WorkflowOrderBy where
  | createdAt
  | startedAt
  | completedAt
  | duration
  | status
  | name

inductive OrderDir where
  | asc
  | desc

structure WorkflowListFilter where
  status : Option WorkflowStatus := none
  name : Option String := none
  version : Option String := none
  type : Option String := none
  parentId : Option String := none
  ns : Option String := none
  runSource : Option RunSource := none
  runSourceId : Option String := none
  metadata : Option Record := none

structure ListWorkflowsParams extends WorkflowListFilter where
  /-- Absent means every row. -/
  limit : Option Nat := none
  offset : Nat := 0
  orderBy : WorkflowOrderBy := .startedAt
  orderDir : OrderDir := .desc

/-! ## Order -/

def WorkflowStatus.text : WorkflowStatus → String
  | .pending => "pending"
  | .running => "running"
  | .completed => "completed"
  | .failed => "failed"
  | .suspended => "suspended"
  | .compensating => "compensating"
  | .tripwire => "tripwire"

inductive SortKey where
  | number (n : Int)
  | text (t : String)

def SortKey.lt : SortKey → SortKey → Bool
  | .number a, .number b => decide (a < b)
  | .text a, .text b => decide (a < b)
  | .number _, .text _ => false
  | .text _, .number _ => false

variable (orderBy : WorkflowOrderBy)

/-- The value a row sorts by; none for a run not started or not finished yet. -/
def workflowSortKey (wf : MutableWorkflow) : Option SortKey :=
  match orderBy with
  | .createdAt => some (.number wf.createdAt)
  | .startedAt => wf.startedAt.map .number
  | .completedAt => wf.completedAt.map .number
  | .duration => wf.completedAt.map fun completedAt => .number (completedAt - wf.createdAt)
  | .status => some (.text wf.status.text)
  | .name => some (.text wf.workflowName)

/-- Whether the comparator of `sortWorkflowRows` wants `a` behind `b`: rows without a value
    sort last in either direction. -/
def sortsAfter (orderDir : OrderDir) (a b : MutableWorkflow) : Bool :=
  match workflowSortKey orderBy a, workflowSortKey orderBy b with
  | none, none => false
  | none, some _ => true
  | some _, none => false
  | some av, some bv =>
    match orderDir with
    | .asc => bv.lt av
    | .desc => av.lt bv

def sortWorkflowRows (orderDir : OrderDir) (rows : List MutableWorkflow) : List MutableWorkflow :=
  StableSort.sort (sortsAfter orderBy orderDir) rows

/-! ## Filter -/

def wantedValue {α : Type} [DecidableEq α] (wanted : Option α) (value : Option α) : Bool :=
  match wanted with
  | none => true
  | some w => value == some w

def wantedText (wanted : Option String) : Option String := wanted.filter (· != "")

def matchesListFilter (wf : MutableWorkflow) (f : WorkflowListFilter) (ns : Option String) :
    Bool :=
  !(truthy ns && wf.ns != ns) &&
  wantedValue f.status (some wf.status) &&
  wantedValue (wantedText f.name) (some wf.workflowName) &&
  wantedValue f.version wf.version &&
  wantedValue (wantedText f.type) wf.workflowType &&
  wantedValue (wantedText f.parentId) wf.parentWorkflowId &&
  wantedValue f.runSource wf.runSource &&
  wantedValue f.runSourceId wf.runSourceId &&
  (match f.metadata with
  | none => true
  | some filter => workflowMetadataMatches wf.metadata filter)

def slicePage {α : Type} (offset : Nat) (limit : Option Nat) (rows : List α) : List α :=
  match limit with
  | none => rows.drop offset
  | some n => (rows.drop offset).take n

namespace InMemoryWorkflowStorage

def listWorkflows (s : InMemoryWorkflowStorage) (p : ListWorkflowsParams) : List WorkflowState :=
  let filtered := s.workflows.values.filter fun wf =>
    matchesListFilter wf p.toWorkflowListFilter (s.resolveNamespace p.ns)
  (slicePage p.offset p.limit (sortWorkflowRows p.orderBy p.orderDir filtered)).map
    (·.toWorkflowState)

end InMemoryWorkflowStorage

end Promin.Durable

/-!
## The history of a run

`loadRunHistory` and `loadSignals` of `InMemoryWorkflowStorage`: what a caller reads of the
runs of a workflow, the current one and those `startFreshRun` has archived, and of its
signals.
-/

namespace Promin.Durable.InMemoryWorkflowStorage

def laterFirst (a b : WorkflowRunSummary) : Prop := b.run - a.run ≤ 0

instance : DecidableRel laterFirst := fun a b => inferInstanceAs (Decidable (b.run - a.run ≤ 0))

def loadRunHistory (s : InMemoryWorkflowStorage) (workflowId : String) (limit offset : Option Nat) :
    List WorkflowRunSummary :=
  match s.workflows.get workflowId with
  | none => []
  | some wf =>
    let archived := (s.runHistory.get workflowId).getD []
    let runs := (currentRunSummary wf :: archived).insertionSort laterFirst
    let from_ := offset.getD 0
    (runs.drop from_).take (limit.getD runs.length)

def loadSignals (s : InMemoryWorkflowStorage) (workflowId : String) : List SignalState :=
  (s.signals.get workflowId).getD []

end Promin.Durable.InMemoryWorkflowStorage

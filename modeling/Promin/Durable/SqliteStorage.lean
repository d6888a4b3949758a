import Promin.Durable.RunQueries

/-!
# Cancelling in the SQLite storage

`cancelWorkflow` of `SqliteWorkflowStorage`, on the rows of its workflow table.
The fence on the cancelled run has been checked; the children are cancelled
without one.
-/

namespace Promin.Durable.SqliteWorkflowStorage

def cancelledRow (now : Int) (wf : MutableWorkflow) : MutableWorkflow :=
  { wf with
    status := .failed
    error := some cancelledError
    errorTag := some cancelledErrorTag
    completedAt := some now
    updatedAt := now }

/-- `UPDATE ... WHERE workflow_id = ? AND status IN ('pending', 'running', 'suspended')`. -/
def updateRow (now : Int) (rows : JsMap String MutableWorkflow) (workflowId : String) :
    JsMap String MutableWorkflow :=
  rows.mapValues fun id wf =>
    if id == workflowId && InMemoryWorkflowStorage.cancellable wf.status then cancelledRow now wf
    else wf

def selectChildren (rows : JsMap String MutableWorkflow) (workflowId : String) : List String :=
  (rows.entries.filter fun e => e.2.parentWorkflowId == some workflowId).map Prod.fst

/-- Cancel a run and, with `cascade`, what is below it. Without fuel left the recursion
    has not come to an end. -/
def cancelWorkflow (now : Int) (cascade : Bool) :
    Nat → JsMap String MutableWorkflow → String → Option (JsMap String MutableWorkflow)
  | 0, _, _ => none
  | fuel + 1, rows, workflowId =>
    let rows := updateRow now rows workflowId
    if cascade then
      (selectChildren rows workflowId).foldlM (fun rows child =>
        cancelWorkflow now cascade fuel rows child) rows
    else some rows

/-! ## Stale runs -/

/-- The statuses stale termination may be asked for. -/
inductive StaleStatus where
  | pending
  | running
  | suspended

def StaleStatus.toStatus : StaleStatus → WorkflowStatus
  | .pending => .pending
  | .running => .running
  | .suspended => .suspended

structure CancelStaleWorkflowsParams where
  olderThanMs : Int
  error : Option String := none
  statuses : Option (List StaleStatus) := none

/-- `NOT EXISTS (SELECT 1 FROM ..._locks WHERE workflow_id = ... AND expires_at > ?)`. -/
def unlocked (now : Int) (locks : JsMap String Lease) (workflowId : String) : Bool :=
  !((locks.get workflowId).map fun lease => decide (lease.expiresAt > now)).getD false

def staleRow (now : Int) (locks : JsMap String Lease) (p : CancelStaleWorkflowsParams)
    (workflowId : String) (wf : MutableWorkflow) : Bool :=
  let statuses := p.statuses.getD [.pending, .running, .suspended]
  decide (wf.status ∈ statuses.map (·.toStatus)) &&
    decide (wf.createdAt < now - p.olderThanMs) && unlocked now locks workflowId

/-- The row the bulk update writes: the columns it does not name keep their values. -/
def staleCancelledRow (now : Int) (error : String) (wf : MutableWorkflow) : MutableWorkflow :=
  { wf with
    status := .failed
    error := some error
    completedAt := some now
    updatedAt := now }

def cancelStaleWorkflows (now : Int) (locks : JsMap String Lease)
    (p : CancelStaleWorkflowsParams) (rows : JsMap String MutableWorkflow) :
    JsMap String MutableWorkflow × Nat :=
  let count := (rows.entries.filter fun e => staleRow now locks p e.1 e.2).length
  if count = 0 then (rows, 0)
  else
    let error := p.error.getD "Stale run cancelled on restart"
    (rows.mapValues fun id wf =>
      if staleRow now locks p id wf then staleCancelledRow now error wf else wf, count)

end Promin.Durable.SqliteWorkflowStorage

/-!
## Listing and counting in the SQLite storage

`listWorkflows` and `countWorkflows` of `SqliteWorkflowStorage`, without order and limit.
The workflow table is a list of rows.  SQLite's `json_extract` is a parameter.
-/

namespace Promin.Durable

/-- A JSON object, as the metadata column stores it. -/
abbrev JsonRecord := { r : Record // JsValue.isJson (.obj r) = true }

/-- The metadata as it is loaded. -/
def recordOf : Option JsonRecord → Option Record
  | some r => some r.val
  | none => none

def encodeRunSource : RunSource → Int
  | .manual => 0
  | .schedule => 1
  | .api => 2
  | .webhook => 3
  | .parent => 4
  | .agent => 5

namespace SqliteWorkflowStorage

/-- A row of the workflow table, by the columns the queries read. -/
structure WfRow where
  workflowId : String
  workflowName : String
  workflowType : Option String
  parentWorkflowId : Option String
  ns : Option String
  status : WorkflowStatus
  version : Option String
  runSource : Option RunSource
  runSourceId : Option String
  metadata : Option JsonRecord

structure ListParams where
  status : Option WorkflowStatus := none
  name : Option String := none
  version : Option String := none
  type : Option String := none
  parentId : Option String := none
  ns : Option String := none
  runSource : Option RunSource := none
  runSourceId : Option String := none
  metadata : Option JsonRecord := none

inductive SqlValue where
  | null
  | int (n : Int)
  | text (s : String)

/-- Whether `a = b` is true in SQL. -/
def sqlEq : SqlValue → SqlValue → Bool
  | .int m, .int n => m == n
  | .text s, .text t => s == t
  | _, _ => false

/-- `/^[A-Za-z_][A-Za-z0-9_]*$/`. -/
def isBareKey (key : String) : Bool :=
  match key.toList with
  | [] => false
  | c :: rest => (c.isAlpha || c == '_') && rest.all fun c => c.isAlphanum || c == '_'

def jsonPathFor (key : String) : String :=
  if isBareKey key then "$." ++ key
  else "$.\"" ++ String.join (key.toList.map fun c =>
    if c = '"' then "\"\"" else String.singleton c) ++ "\""

def comparedInSql : JsValue → Bool
  | .null => true
  | .bool _ => true
  | .num _ => true
  | .str _ => true
  | _ => false

def sqlValue : JsValue → SqlValue
  | .bool b => .int (if b then 1 else 0)
  | .num n => .int n
  | .str s => .text s
  | _ => .null

/-- `${column} = ?`, when there is a value to compare with. -/
def columnEq {α β : Type} [DecidableEq β] (encode : α → β) (wanted : Option α)
    (column : Option α) : Bool :=
  match wanted with
  | none => true
  | some value => column.map encode == some (encode value)

/-- The condition is left out for an absent or empty value. -/
def unlessEmpty (wanted : Option String) : Option String := wanted.filter (· != "")

def columnConditions (p : ListParams) (row : WfRow) : Bool :=
  columnEq id p.status (some row.status) &&
  columnEq id (unlessEmpty p.name) (some row.workflowName) &&
  columnEq id p.version row.version &&
  columnEq id (unlessEmpty p.type) row.workflowType &&
  columnEq id (unlessEmpty p.parentId) row.parentWorkflowId &&
  columnEq id (unlessEmpty p.ns) row.ns &&
  columnEq encodeRunSource p.runSource row.runSource &&
  columnEq id p.runSourceId row.runSourceId

section

variable (json_extract : Option JsonRecord → String → SqlValue)

/-- `json_extract(metadata, ?) = ?` for the filter values that are compared in SQL. -/
def metadataConditions (filter : Record) (row : WfRow) : Bool :=
  filter.all fun e =>
    if comparedInSql e.2 then
      sqlEq (json_extract row.metadata (jsonPathFor e.1)) (sqlValue e.2)
    else true

/-- The metadata filter; without one nothing is asked of the metadata. -/
def ListParams.filter (p : ListParams) : Record := (recordOf p.metadata).getD []

/-- The rows the `WHERE` clause selects. -/
def selected (p : ListParams) (rows : List WfRow) : List WfRow :=
  rows.filter fun row => columnConditions p row && metadataConditions json_extract p.filter row

def listWorkflows (p : ListParams) (rows : List WfRow) : List WfRow :=
  -- Arrays and objects are compared after the query.
  let needsPostFilter := p.filter.any fun e => !comparedInSql e.2
  if needsPostFilter then
    (selected json_extract p rows).filter fun row =>
      workflowMetadataMatches (recordOf row.metadata) p.filter
  else selected json_extract p rows

def countWorkflows (p : ListParams) (rows : List WfRow) : Nat :=
  (selected json_extract p rows).length

end

end SqliteWorkflowStorage

end Promin.Durable

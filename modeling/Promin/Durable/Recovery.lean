import Promin.Durable.SqliteStorage

/-!
# Terminating stale runs

Phase 1 of `recoverWorkflows`: a storage with a bulk `cancelStaleWorkflows` is
asked to do it in one statement, any other is paged through, status by status.
-/

namespace Promin.Durable

open SqliteWorkflowStorage (StaleStatus CancelStaleWorkflowsParams)

inductive StaleTerminationAction where
  | cancel
  | fail (error : String)

/-- The options of a `RecoveryStrategy` stale termination reads. -/
structure StaleTerminationOpts where
  staleThresholdMs : Int
  staleStatuses : List StaleStatus
  staleAction : StaleTerminationAction

def cancelStale (olderThanMs : Int) (statuses : Option (List StaleStatus)) :
    StaleTerminationOpts where
  staleThresholdMs := olderThanMs
  staleStatuses := statuses.getD [.pending, .running]
  staleAction := .cancel

def failStale (olderThanMs : Int) (error : Option String) (statuses : Option (List StaleStatus)) :
    StaleTerminationOpts where
  staleThresholdMs := olderThanMs
  staleStatuses := statuses.getD [.pending, .running]
  staleAction := .fail (error.getD "Stale run auto-failed on restart")

/-- The storage methods the paged path calls. An error of `releaseLock` is dropped by its
    caller. -/
structure PagedStorage (σ : Type) where
  listWorkflows : σ → ListWorkflowsParams → List WorkflowState
  tryLock : σ → (workflowId : String) → (lockDurationMs : Int) → σ × TryLockResult
  cancelWorkflow : σ → (workflowId : String) → FenceGuard → σ × Except StorageError Unit
  failWorkflow : σ → (workflowId error : String) → FenceGuard → σ × Except StorageError Unit
  releaseLock : σ → (workflowId : String) → FenceGuard → σ

/-- A storage as `terminateStaleRuns` sees it: with the capability `cancelStale`, or without. -/
inductive RecoveryStorage (σ : Type) where
  | bulk (cancelStaleWorkflows : σ → CancelStaleWorkflowsParams → σ × Nat)
  | paged (ops : PagedStorage σ)

def staleTerminationLockMs : Int := 30000

def recoveryPageSize : Nat := 200

/-- The variables of the paged loop. -/
structure Sweep (σ : Type) where
  storage : σ
  tried : List String
  stuck : List String
  progressed : Bool
  terminated : Nat

namespace Sweep

variable {σ : Type}

def addStuck (w : Sweep σ) (workflowId : String) : Sweep σ :=
  { w with stuck := w.stuck.insert workflowId }

variable (ops : PagedStorage σ)

/-- What a terminate and the release after it leave: a terminate that throws is not counted,
    and its lock is released all the same. -/
def ended (w : Sweep σ) (workflowId : String) (guard_ : FenceGuard)
    (r : σ × Except StorageError Unit) : Sweep σ × Except StorageError Unit :=
  let w := { w with storage := ops.releaseLock r.1 workflowId guard_ }
  match r.2 with
  | .error e => (w, .error e)
  | .ok () => ({ w with terminated := w.terminated + 1 }, .ok ())

def terminate (action : StaleTerminationAction) (w : Sweep σ) (workflowId : String)
    (guard_ : FenceGuard) : Sweep σ × Except StorageError Unit :=
  let w := { w with progressed := true }
  match action with
  | .cancel => w.ended ops workflowId guard_ (ops.cancelWorkflow w.storage workflowId guard_)
  | .fail error =>
    w.ended ops workflowId guard_ (ops.failWorkflow w.storage workflowId error guard_)

def visitRow (action : StaleTerminationAction) (w : Sweep σ) (workflowId : String) :
    Sweep σ × Except StorageError Unit :=
  if workflowId ∈ w.tried then (w.addStuck workflowId, .ok ())
  else
    let w := { w with tried := w.tried.insert workflowId }
    let locked := ops.tryLock w.storage workflowId staleTerminationLockMs
    let w := { w with storage := locked.1 }
    if !locked.2.acquired then (w.addStuck workflowId, .ok ())
    else w.terminate ops action workflowId locked.2.token

def visitPage (ops : PagedStorage σ) (action : StaleTerminationAction) (cutoff : Int) :
    List WorkflowState → Sweep σ → Sweep σ × Except StorageError Unit
  | [], w => (w, .ok ())
  | wf :: page, w =>
    if wf.createdAt ≥ cutoff then (w, .ok ())
    else
      match w.visitRow ops action wf.workflowId with
      | (w, .error e) => (w, .error e)
      | (w, .ok ()) => visitPage ops action cutoff page w

/-- The next page of runs that may be stale. -/
def page (status : StaleStatus) (w : Sweep σ) : List WorkflowState :=
  ops.listWorkflows w.storage {
    status := some status.toStatus, limit := some recoveryPageSize, offset := w.stuck.length
    orderBy := .createdAt, orderDir := .asc }

def sweepStatus (ops : PagedStorage σ) (action : StaleTerminationAction) (cutoff : Int)
    (status : StaleStatus) : Nat → Sweep σ → Option (Sweep σ × Except StorageError Unit)
  | 0, _ => none
  | fuel + 1, w =>
    let page := w.page ops status
    match visitPage ops action cutoff page { w with progressed := false } with
    | (w', .error e) => some (w', .error e)
    | (w', .ok ()) =>
      -- Newly stuck rows move the offset past them.
      if !w'.progressed && w'.stuck.length == w.stuck.length then some (w', .ok ())
      else if w'.progressed && decide (page.length < recoveryPageSize) then some (w', .ok ())
      else sweepStatus ops action cutoff status fuel w'

def sweepStatuses (ops : PagedStorage σ) (action : StaleTerminationAction) (cutoff : Int)
    (fuel : Nat) : List StaleStatus → σ → Nat → Option (σ × Except StorageError Nat)
  | [], s, terminated => some (s, .ok terminated)
  | status :: rest, s, terminated =>
    match sweepStatus ops action cutoff status fuel ⟨s, [], [], false, terminated⟩ with
    | none => none
    | some (w, .error e) => some (w.storage, .error e)
    | some (w, .ok ()) => sweepStatuses ops action cutoff fuel rest w.storage w.terminated

end Sweep

/-- `terminateStaleRuns`: how many runs it terminated. `fuel` bounds the pages of a status. -/
def terminateStaleRuns {σ : Type} (storage : RecoveryStorage σ) (nowMs : Int)
    (opts : StaleTerminationOpts) (fuel : Nat) (s : σ) :
    Option (σ × Except StorageError Nat) :=
  let errorMsg := match opts.staleAction with
    | .fail error => error
    | .cancel => "Stale run cancelled on restart"
  match storage with
  | .bulk cancelStaleWorkflows =>
    let r := cancelStaleWorkflows s {
      olderThanMs := opts.staleThresholdMs, error := some errorMsg
      statuses := some opts.staleStatuses }
    some (r.1, .ok r.2)
  | .paged ops =>
    Sweep.sweepStatuses ops opts.staleAction (nowMs - opts.staleThresholdMs) fuel
      opts.staleStatuses s 0

/-! ## The storages -/

def inMemoryPages (ignores : String → Bool) : PagedStorage InMemoryWorkflowStorage where
  listWorkflows := fun s p => s.listWorkflows p
  tryLock := fun s workflowId lockDurationMs => s.tryLock workflowId lockDurationMs none
  cancelWorkflow := fun s workflowId guard_ =>
    if ignores workflowId then (s, .ok ()) else s.cancelWorkflow workflowId false guard_
  failWorkflow := fun s workflowId error guard_ =>
    if ignores workflowId then (s, .ok ()) else s.failWorkflow workflowId error none guard_
  releaseLock := fun s workflowId guard_ => s.releaseLock workflowId guard_

def inMemoryRecovery (ignores : String → Bool) : RecoveryStorage InMemoryWorkflowStorage :=
  .paged (inMemoryPages ignores)

/-- The tables stale termination touches in a `SqliteWorkflowStorage`. -/
structure SqliteTables where
  rows : JsMap String MutableWorkflow
  locks : JsMap String Lease

def sqliteRecovery (now : Int) : RecoveryStorage SqliteTables :=
  .bulk fun t p =>
    let r := SqliteWorkflowStorage.cancelStaleWorkflows now t.locks p t.rows
    ({ t with rows := r.1 }, r.2)

end Promin.Durable

import Promin.Scheduler.SchedulerStorage

/-!
# The step queue

`InMemoryStepQueue`: the coordinator enqueues steps, workers claim and settle
them, and the coordinator consumes the outcome.
-/

namespace Promin.Distributed

open Scheduler (InMemoryLeaderLeases LeaderLease StaleLeaseError)

inductive StepTaskStatus where
  | pending
  | running
  | completed
  | failed
  deriving DecidableEq

def StepTaskStatus.settled : StepTaskStatus → Bool
  | .completed => true
  | .failed => true
  | .pending => false
  | .running => false

/-- A task as a worker sees it. -/
structure StepTask where
  id : String
  workflowId : String
  stepName : String
  needs : List String
  priority : Int
  input : JsValue
  deps : List (String × JsValue)
  dependsOn : List String
  timeoutMs : Option Int
  attempt : Int
  run : Int
  deliveries : Int
  status : StepTaskStatus
  createdAt : Int
  claimToken : Option String
  version : Option String
  metadata : Option (List (String × JsValue))
  concurrencyKey : Option String
  concurrencyScope : Option String
  concurrencyLimit : Option Int
  deriving DecidableEq

/-- A stored task: the claimed shape plus claim and outcome fields. -/
structure MutableTask extends StepTask where
  claimedBy : Option String
  claimedAt : Option Int
  heartbeatAt : Option Int
  completedAt : Option Int
  result : JsValue
  error : Option String
  errorTag : Option String
  stepMetadata : Option (List (String × JsValue))
  durationMs : Option Int
  consumedAt : Option Int
  ns : Option String

structure StepQueueEnqueueParams where
  workflowId : String
  stepName : String
  input : JsValue
  deps : Option (List (String × JsValue)) := none
  dependsOn : Option (List String) := none
  timeoutMs : Option Int := none
  needs : Option (List String) := none
  priority : Option Int := none
  ns : Option String := none
  version : Option String := none
  attempt : Option Int := none
  run : Option Int := none
  metadata : Option (List (String × JsValue)) := none
  concurrencyKey : Option String := none
  concurrencyScope : Option String := none
  concurrencyLimit : Option Int := none

structure StepQueueClaimParams where
  workerId : String
  limit : Int
  capabilities : Option (List String) := none
  stepNames : Option (List String) := none
  versions : Option (List String) := none

/-- Params of `complete`. Without a token the call settles whoever holds the task. -/
structure StepQueueCompleteParams where
  taskId : String
  claimToken : Option String
  result : JsValue
  durationMs : Int
  stepMetadata : Option (List (String × JsValue)) := none

structure StepQueueFailParams where
  taskId : String
  claimToken : Option String
  error : String
  errorTag : Option String := none
  durationMs : Int
  stepMetadata : Option (List (String × JsValue)) := none

/-- Which running tasks `requeueStuck` puts back. -/
inductive StepQueueRequeueMode where
  /-- Every task claimed under `workerId`. -/
  | worker (workerId : String)
  /-- Every task whose last activity is more than `olderThanMs` ago. -/
  | stale (olderThanMs : Int)

/-- Params of `requeueStuck`. -/
structure StepQueueRequeueParams where
  mode : StepQueueRequeueMode
  lease : Option LeaderLease := none

def defaultMaxDeliveries : Int := 10

def deadLetterError (maxDeliveries : Int) : String :=
  "poisoned: exceeded " ++ toString maxDeliveries ++ " deliveries"

structure InMemoryStepQueueConfig where
  maxDeliveries : Option Int := none
  leaderLeases : Option InMemoryLeaderLeases := none
  /-- Reading of the clock when the queue is built. -/
  now : Int := 0

/-- Tasks by id, with an index of those not consumed. -/
structure InMemoryStepQueue where
  tasks : JsMap String MutableTask
  /-- `activeKey` of an unconsumed task to the task's id. -/
  activeByKey : JsMap String String
  counter : Nat
  maxDeliveries : Int
  leaderLeases : Option InMemoryLeaderLeases
  now : Int

namespace InMemoryStepQueue

def new (config : InMemoryStepQueueConfig) : InMemoryStepQueue where
  tasks := JsMap.empty
  activeByKey := JsMap.empty
  counter := 0
  maxDeliveries := config.maxDeliveries.getD defaultMaxDeliveries
  leaderLeases := config.leaderLeases
  now := config.now

def activeKey (workflowId stepName : String) : String := workflowId ++ "::" ++ stepName

/-- Id of the `n`-th number the counter hands out, as a task. -/
def taskIdOf (n : Nat) : String := "task-" ++ toString n

/-- Claim token of the `n`-th number the counter hands out. -/
def claimTokenOf (n : Nat) : String := "claim-" ++ toString n

variable (q : InMemoryStepQueue)

def newTask (id : String) (p : StepQueueEnqueueParams) : MutableTask where
  id := id
  workflowId := p.workflowId
  stepName := p.stepName
  needs := p.needs.getD []
  priority := p.priority.getD 5
  input := p.input
  deps := p.deps.getD []
  dependsOn := p.dependsOn.getD []
  timeoutMs := p.timeoutMs
  attempt := p.attempt.getD 1
  run := p.run.getD 1
  deliveries := 0
  status := .pending
  createdAt := q.now
  claimToken := none
  version := p.version
  metadata := p.metadata
  concurrencyKey := p.concurrencyKey
  concurrencyScope := p.concurrencyScope
  concurrencyLimit := p.concurrencyLimit
  claimedBy := none
  claimedAt := none
  heartbeatAt := none
  completedAt := none
  result := .undefined
  error := none
  errorTag := none
  stepMetadata := none
  durationMs := none
  consumedAt := none
  ns := p.ns

/-- Adds a task, unless the step has one already. -/
def enqueue (p : StepQueueEnqueueParams) : InMemoryStepQueue × String :=
  let key := activeKey p.workflowId p.stepName
  match q.activeByKey.get key with
  | some existing => (q, existing)
  | none =>
    let id := taskIdOf (q.counter + 1)
    ({ q with
        counter := q.counter + 1
        tasks := q.tasks.set id (q.newTask id p)
        activeByKey := q.activeByKey.set key id }, id)

/-! ## Claiming -/

/-- The task is one this claim asks for. -/
def claimable (p : StepQueueClaimParams) (task : MutableTask) : Bool :=
  task.status == .pending &&
  (match p.stepNames with
    | some names => names.contains task.stepName
    | none => true) &&
  (match p.versions, task.version with
    | some versions, some version => versions.contains version
    | _, _ => true) &&
  -- Subset check: task.needs ⊆ capabilities. Empty needs matches anyone.
  task.needs.all (fun n => (p.capabilities.getD []).contains n)

/-- Whether the sort of `claim` leaves `a` before `b`: higher priority first, then
    older first. -/
def claimsBefore (a b : String × MutableTask) : Bool :=
  decide (b.2.priority < a.2.priority) ||
    (decide (b.2.priority = a.2.priority) && decide (a.2.createdAt ≤ b.2.createdAt))

def claimOrder (p : StepQueueClaimParams) : List (String × MutableTask) :=
  (q.tasks.entries.filter fun e => claimable p e.2).insertionSort fun a b => claimsBefore a b = true

def concurrencyCounterKey (task : MutableTask) : Option String :=
  if truthy task.concurrencyKey && truthy task.concurrencyScope then
    some (task.concurrencyScope.getD "" ++ "::" ++ task.concurrencyKey.getD "")
  else none

def runningPerKey : JsMap String Int :=
  q.tasks.values.foldl (fun counts t =>
    if t.status = .running then
      match concurrencyCounterKey t with
      | some k => counts.set k ((counts.get k).getD 0 + 1)
      | none => counts
    else counts) JsMap.empty

/-- Count the task against its concurrency cap: `none` when the cap is exhausted. -/
def reserve (counts : JsMap String Int) (task : MutableTask) : Option (JsMap String Int) :=
  match concurrencyCounterKey task, task.concurrencyLimit with
  | some k, some limit =>
    let running := (counts.get k).getD 0
    if running ≥ limit then none else some (counts.set k (running + 1))
  | _, _ => some counts

/-- The row of a task handed to `workerId` under the counter's number `n`. -/
def claimedTask (workerId : String) (n : Nat) (task : MutableTask) : MutableTask :=
  { task with
    status := .running
    claimedBy := some workerId
    claimedAt := some q.now
    -- A heartbeat left over from an earlier claim must not make this one look stale.
    heartbeatAt := none
    claimToken := some (claimTokenOf n)
    deliveries := task.deliveries + 1 }

/-- The loop of `claim`: `claimed` tasks were handed out so far. -/
def claimLoop (p : StepQueueClaimParams) : List (String × MutableTask) → JsMap String Int → Nat →
    InMemoryStepQueue → InMemoryStepQueue × List StepTask
  | [], _, _, q => (q, [])
  | (id, task) :: rest, counts, claimed, q =>
    if (claimed : Int) ≥ p.limit then (q, [])
    else match reserve counts task with
      | none => claimLoop p rest counts claimed q
      | some counts' =>
        let task' := q.claimedTask p.workerId (q.counter + 1) task
        let q' := { q with tasks := q.tasks.set id task', counter := q.counter + 1 }
        let (q'', tasks) := claimLoop p rest counts' (claimed + 1) q'
        (q'', task'.toStepTask :: tasks)

/-- Claim up to `limit` pending tasks the worker can run. -/
def claim (p : StepQueueClaimParams) : InMemoryStepQueue × List StepTask :=
  claimLoop p (q.claimOrder p) q.runningPerKey 0 q

/-! ## Settling -/

def currentClaim (taskId : String) (claimToken : Option String) : Option MutableTask :=
  match q.tasks.get taskId with
  | none => none
  | some task =>
    if task.status ≠ .running then none
    else match claimToken with
      | none => some task
      | some token => if task.claimToken = some token then some task else none

def onCurrentClaim (taskId : String) (claimToken : Option String) (f : MutableTask → MutableTask) :
    InMemoryStepQueue × Bool :=
  match q.currentClaim taskId claimToken with
  | none => (q, false)
  | some task => ({ q with tasks := q.tasks.set taskId (f task) }, true)

def backToPending (task : MutableTask) : MutableTask :=
  { task with
    status := .pending
    claimedBy := none
    claimedAt := none
    claimToken := none
    heartbeatAt := none }

/-- Gives a task back, as if it had not been delivered. -/
def release (taskId claimToken : String) : InMemoryStepQueue × Bool :=
  q.onCurrentClaim taskId (some claimToken) fun task =>
    { backToPending task with deliveries := max 0 (task.deliveries - 1) }

/-- Settles a task under its current claim. -/
def complete (p : StepQueueCompleteParams) : InMemoryStepQueue × Bool :=
  q.onCurrentClaim p.taskId p.claimToken fun task =>
    { task with
      status := .completed
      result := p.result
      stepMetadata := p.stepMetadata
      durationMs := some p.durationMs
      completedAt := some q.now }

def heartbeat (taskId : String) (claimToken : Option String) : InMemoryStepQueue × Bool :=
  q.onCurrentClaim taskId claimToken fun task => { task with heartbeatAt := some q.now }

/-- Settles a task with an error, under its current claim. -/
def fail (p : StepQueueFailParams) : InMemoryStepQueue × Bool :=
  q.onCurrentClaim p.taskId p.claimToken fun task =>
    { task with
      status := .failed
      error := some p.error
      errorTag := p.errorTag
      stepMetadata := p.stepMetadata
      durationMs := some p.durationMs
      completedAt := some q.now }

/-! ## Sweeps -/

/-- The task is one this sweep takes from its worker. -/
def stuck (mode : StepQueueRequeueMode) (task : MutableTask) : Bool :=
  task.status == .running &&
  match mode with
  | .worker workerId => task.claimedBy == some workerId
  | .stale olderThanMs =>
    match task.heartbeatAt.or task.claimedAt with
    | some lastActivity => decide (lastActivity < q.now - olderThanMs)
    | none => false

def deadLettered (task : MutableTask) : Bool :=
  decide (task.deliveries ≥ q.maxDeliveries)

def sweptTask (mode : StepQueueRequeueMode) (task : MutableTask) : MutableTask :=
  if q.stuck mode task then
    if q.deadLettered task then
      { task with
        status := .failed
        error := some (deadLetterError q.maxDeliveries)
        completedAt := some q.now
        claimToken := none }
    else backToPending task
  else task

/-- Put stuck tasks back to pending; answers how many were requeued and how many
    dead-lettered. A stale lease rejects the sweep before it changes anything. -/
def requeueStuck (p : StepQueueRequeueParams) :
    InMemoryStepQueue × Except StaleLeaseError (Nat × Nat) :=
  let fence := match p.lease, q.leaderLeases with
    | some lease, some leases => leases.assertCurrent lease
    | _, _ => .ok ()
  match fence with
  | .error e => (q, .error e)
  | .ok () =>
    let picked := q.tasks.values.filter (q.stuck p.mode)
    ({ q with tasks := q.tasks.mapValues fun _ task => q.sweptTask p.mode task },
      .ok ((picked.filter fun t => !q.deadLettered t).length,
        (picked.filter q.deadLettered).length))

def freeSlot (activeByKey : JsMap String String) (task : MutableTask) : JsMap String String :=
  let key := activeKey task.workflowId task.stepName
  if activeByKey.get key = some task.id then activeByKey.delete key else activeByKey

/-- Whether `purge` deletes the task. -/
def purgeable (completedBefore : Int) (task : MutableTask) : Bool :=
  task.status.settled &&
  match task.completedAt with
  | some at_ => decide (at_ < completedBefore)
  | none => false

/-- Delete settled tasks that finished before `completedBefore`. -/
def purge (completedBefore : Int) : InMemoryStepQueue × Nat :=
  let purged := q.tasks.values.filter (purgeable completedBefore)
  ({ q with
      tasks := q.tasks.filter fun _ task => !purgeable completedBefore task
      activeByKey := purged.foldl freeSlot q.activeByKey }, purged.length)

/-! ## Consuming -/

/-- Mark a settled task's outcome as taken. -/
def consume (taskId : String) : InMemoryStepQueue × Bool :=
  match q.tasks.get taskId with
  | none => (q, false)
  | some task =>
    if task.consumedAt.isSome then (q, false)
    else if !task.status.settled then (q, false)
    else
      ({ q with
          tasks := q.tasks.set taskId { task with consumedAt := some q.now }
          activeByKey := freeSlot q.activeByKey task }, true)

def consumeSettledStep (workflowId stepName : String) : InMemoryStepQueue × Bool :=
  match q.activeByKey.get (activeKey workflowId stepName) with
  | none => (q, false)
  | some id => q.consume id

/-- Consume every settled, unconsumed task of `stepNames`. The loop awaits between
    two steps, so another call may run there: that interleaving is the run with one
    `consumeSettled` call per step name. -/
def consumeSettled (q : InMemoryStepQueue) (workflowId : String) :
    List String → InMemoryStepQueue × Nat
  | [] => (q, 0)
  | stepName :: rest =>
    let (q', consumed) := q.consumeSettledStep workflowId stepName
    let (q'', n) := q'.consumeSettled workflowId rest
    (q'', n + if consumed then 1 else 0)

end InMemoryStepQueue

/-! ## The queue as a machine -/

/-- One call on the queue, a change of the lease store it shares, or time passing. -/
inductive StepQueueOp where
  | advance (ms : Nat)
  | leaderLeases (leases : InMemoryLeaderLeases)
  | enqueue (p : StepQueueEnqueueParams)
  | claim (p : StepQueueClaimParams)
  | release (taskId claimToken : String)
  | heartbeat (taskId : String) (claimToken : Option String)
  | complete (p : StepQueueCompleteParams)
  | fail (p : StepQueueFailParams)
  | requeueStuck (p : StepQueueRequeueParams)
  | consume (taskId : String)
  | consumeSettled (workflowId : String) (stepNames : List String)
  | purge (completedBefore : Int)

/-- What a call on the queue answers. -/
inductive StepQueueAnswer where
  | none
  | taskId (id : String)
  | claimed (tasks : List StepTask)
  | done (ok : Bool)
  | swept (result : Except StaleLeaseError (Nat × Nat))
  | count (n : Nat)
  deriving DecidableEq

def stepQueue : Machine InMemoryStepQueue StepQueueOp StepQueueAnswer where
  step q o := match o with
    | .advance ms => ({ q with now := q.now + ms }, .none)
    | .leaderLeases leases =>
      ({ q with leaderLeases := q.leaderLeases.map fun _ => leases }, .none)
    | .enqueue p => let (q', id) := q.enqueue p; (q', .taskId id)
    | .claim p => let (q', tasks) := q.claim p; (q', .claimed tasks)
    | .release taskId token => let (q', ok) := q.release taskId token; (q', .done ok)
    | .heartbeat taskId token => let (q', ok) := q.heartbeat taskId token; (q', .done ok)
    | .complete p => let (q', ok) := q.complete p; (q', .done ok)
    | .fail p => let (q', ok) := q.fail p; (q', .done ok)
    | .requeueStuck p => let (q', result) := q.requeueStuck p; (q', .swept result)
    | .consume taskId => let (q', ok) := q.consume taskId; (q', .done ok)
    | .consumeSettled workflowId stepNames =>
      let (q', n) := q.consumeSettled workflowId stepNames; (q', .count n)
    | .purge completedBefore => let (q', n) := q.purge completedBefore; (q', .count n)

end Promin.Distributed

import Promin.ForStd.JsMap
import Promin.ForStd.Machine
import Promin.ForStd.Text
import Promin.Shared.JsValue

/-!
# The workflow start queue

`InMemoryWorkflowStartQueue`: "please drive this run" records, one per run at
most. A worker claims a start, drives the run and completes the start.
-/

namespace Promin.Distributed

structure WorkflowStartRecord where
  id : String
  workflowId : String
  workflowName : String
  metadata : Option (List (String × JsValue)) := none
  version : Option String := none
  enqueuedAt : Int
  /-- A pending record is not claimable before this time. -/
  availableAt : Option Int := none
  claimedAt : Option Int := none
  claimedBy : Option String := none
  claimToken : Option String := none
  heartbeatAt : Option Int := none
  /-- The run was enqueued again while this claim held it; absent is `false`. -/
  requeued : Bool := false

structure WorkflowStartClaimRef where
  id : String
  claimToken : String

structure WorkflowStartEnqueueParams where
  workflowId : String
  workflowName : String
  metadata : Option (List (String × JsValue)) := none
  version : Option String := none
  /-- Leave a pending start's release delay as it is. -/
  keepAvailableAt : Bool := false

/-- Answer of `enqueue`. -/
structure WorkflowStartEnqueueResult where
  id : String
  created : Bool
  claimable : Bool

/-- Per-name set of versions a worker can run; no versions means any. -/
structure WorkerWorkflowSpec where
  name : String
  versions : List String

structure WorkflowStartClaimParams where
  workflowSpecs : List WorkerWorkflowSpec
  workerId : Option String := none
  limit : Int
  claimId : Option String := none

def defaultStartListLimit : Int := 100

def defaultStartReclaimAfterMs : Int := 120000

def claimIdPattern (claimId : String) : Bool :=
  let chars := claimId.toList
  decide (1 ≤ chars.length) && decide (chars.length ≤ 128) &&
    chars.all fun c => c.isAlphanum || c == '_' || c == '-'

def startMatchesSpec (version : Option String) (spec : WorkerWorkflowSpec) : Bool :=
  !truthy version || spec.versions.isEmpty ||
    match version with
    | some v => spec.versions.contains v
    | none => false

/-- The page size `list` uses. -/
def startListLimit (limit : Option Int) : Int := max 0 (limit.getD defaultStartListLimit)

/-- The claim token of the `index`-th start claimed under `claimId`, or the UUID alone. -/
def claimTokenFor (claimId : Option String) (index : Nat) (uuid : String) : Except String String :=
  match claimId with
  | none => .ok uuid
  | some claimId =>
    if claimIdPattern claimId then .ok (claimId ++ ":" ++ toString index ++ ":" ++ uuid)
    else .error ("invalid claimId \"" ++ claimId ++ "\": use letters, digits, - and _")

def isTokenOfClaim (token : Option String) (claimId : String) : Bool :=
  match token with
  | some text => (claimId ++ ":").toList.isPrefixOf text.toList
  | none => false

/-- The record without its claim, availability and requeue fields: pending, claimable
    now. -/
def unclaimed (rec : WorkflowStartRecord) : WorkflowStartRecord where
  id := rec.id
  workflowId := rec.workflowId
  workflowName := rec.workflowName
  enqueuedAt := rec.enqueuedAt
  metadata := rec.metadata
  version := rec.version

structure InMemoryWorkflowStartQueueConfig where
  reclaimAfterMs : Option Int := none
  /-- Reading of the clock when the queue is built. -/
  now : Int := 0

structure InMemoryWorkflowStartQueue where
  records : JsMap String WorkflowStartRecord
  byWorkflowId : JsMap String String
  reclaimAfterMs : Int
  seq : Nat
  now : Int

namespace InMemoryWorkflowStartQueue

def new (config : InMemoryWorkflowStartQueueConfig) : InMemoryWorkflowStartQueue where
  records := JsMap.empty
  byWorkflowId := JsMap.empty
  reclaimAfterMs := config.reclaimAfterMs.getD defaultStartReclaimAfterMs
  seq := 0
  now := config.now

/-- `Math.random().toString(36).slice(2, 8)`, from the digits after the point. -/
def randomSuffix (random : List (Fin 36)) : String :=
  String.ofList ((random.take 6).map fun d => digit36 d.val)

def startId (now : Int) (seq : Nat) (random : List (Fin 36)) : String :=
  "start-" ++ now.toBase36 ++ "-" ++ seq.toBase36 ++ "-" ++ randomSuffix random

variable (q : InMemoryWorkflowStartQueue)

def newRecord (id : String) (p : WorkflowStartEnqueueParams) : WorkflowStartRecord where
  id := id
  workflowId := p.workflowId
  workflowName := p.workflowName
  metadata := p.metadata
  version := p.version
  enqueuedAt := q.now

/-- Queue a start, or mark the one already queued. `none` is the `TypeError` of an
    index entry without a record. -/
def enqueue (p : WorkflowStartEnqueueParams) (random : List (Fin 36)) :
    InMemoryWorkflowStartQueue × Option WorkflowStartEnqueueResult :=
  match q.byWorkflowId.get p.workflowId with
  | some existing =>
    match q.records.get existing with
    | none => (q, none)
    | some rec =>
      if rec.claimToken.isSome then
        ({ q with records := q.records.set existing { rec with requeued := true } },
          some { id := existing, created := false, claimable := false })
      else match rec.availableAt with
        | some availableAt =>
          if !p.keepAvailableAt then
            ({ q with records := q.records.set existing (unclaimed rec) },
              some { id := existing, created := false, claimable := decide (availableAt > q.now) })
          else (q, some { id := existing, created := false, claimable := false })
        | none => (q, some { id := existing, created := false, claimable := false })
  | none =>
    let id := startId q.now (q.seq + 1) random
    ({ q with
        seq := q.seq + 1
        records := q.records.set id (q.newRecord id p)
        byWorkflowId := q.byWorkflowId.set p.workflowId id },
      some { id := id, created := true, claimable := true })

/-- Whether the record's claim has had no sign of life since the reclaim window. -/
def stale (rec : WorkflowStartRecord) : Bool :=
  rec.claimToken.isSome &&
    decide ((rec.heartbeatAt.or rec.claimedAt).getD 0 < q.now - q.reclaimAfterMs)

def reclaimStale : InMemoryWorkflowStartQueue :=
  { q with records := q.records.mapValues fun _ rec => if q.stale rec then unclaimed rec else rec }

def specByName (specs : List WorkerWorkflowSpec) : JsMap String WorkerWorkflowSpec :=
  specs.foldl (fun m spec => m.set spec.name spec) JsMap.empty

/-- The start may be claimed by this worker now. -/
def claims (p : WorkflowStartClaimParams) (rec : WorkflowStartRecord) : Bool :=
  rec.claimToken.isNone &&
  (match (specByName p.workflowSpecs).get rec.workflowName with
    | some spec => startMatchesSpec rec.version spec
    | none => false) &&
  match rec.availableAt with
  | some availableAt => decide (availableAt ≤ q.now)
  | none => true

def stamped (p : WorkflowStartClaimParams) (token : String) (rec : WorkflowStartRecord) :
    WorkflowStartRecord :=
  { unclaimed rec with
    claimedAt := some q.now
    heartbeatAt := some q.now
    claimToken := some token
    claimedBy := p.workerId }

/-- The loop of `claim` over the records in enqueue order, `claimed` of them handed out
    so far. -/
def claimLoop (p : WorkflowStartClaimParams) (uuids : Nat → String) :
    List WorkflowStartRecord → Nat → InMemoryWorkflowStartQueue →
    InMemoryWorkflowStartQueue × Except String (List WorkflowStartRecord)
  | [], _, q => (q, .ok [])
  | rec :: rest, claimed, q =>
    if (claimed : Int) ≥ p.limit then (q, .ok [])
    else if !q.claims p rec then claimLoop p uuids rest claimed q
    else match claimTokenFor p.claimId claimed (uuids claimed) with
      | .error e => (q, .error e)
      | .ok token =>
        let rec' := q.stamped p token rec
        let next :=
          claimLoop p uuids rest (claimed + 1) { q with records := q.records.set rec.id rec' }
        (next.1, next.2.map (rec' :: ·))

/-- Claim up to `limit` pending starts the worker can run. A retry under the id of an
    earlier call gets the starts that call still holds. -/
def claim (p : WorkflowStartClaimParams) (uuids : Nat → String) :
    InMemoryWorkflowStartQueue × Except String (List WorkflowStartRecord) :=
  let q := q.reclaimStale
  match p.claimId with
  | none => claimLoop p uuids q.records.values 0 q
  | some claimId =>
    -- Validates the id; the token itself is thrown away.
    match claimTokenFor (some claimId) 0 "" with
    | .error e => (q, .error e)
    | .ok _ =>
      let already := q.records.values.filter fun r => isTokenOfClaim r.claimToken claimId
      if already.length > 0 then (q, .ok already)
      else claimLoop p uuids q.records.values 0 q

def current (ref : WorkflowStartClaimRef) : Option WorkflowStartRecord :=
  match q.records.get ref.id with
  | some rec => if rec.claimToken = some ref.claimToken then some rec else none
  | none => none

def heartbeat (ref : WorkflowStartClaimRef) : InMemoryWorkflowStartQueue × Bool :=
  let q := q.reclaimStale
  match q.current ref with
  | none => (q, false)
  | some rec =>
    ({ q with records := q.records.set ref.id { rec with heartbeatAt := some q.now } }, true)

/-- Removes the start, or keeps it for the wake-up that came meanwhile. -/
def complete (ref : WorkflowStartClaimRef) : InMemoryWorkflowStartQueue × Bool :=
  match q.current ref with
  | none => (q, false)
  | some rec =>
    if rec.requeued then ({ q with records := q.records.set ref.id (unclaimed rec) }, true)
    else
      ({ q with
          records := q.records.delete ref.id
          byWorkflowId := q.byWorkflowId.delete rec.workflowId }, true)

/-- The record `release` leaves. A run enqueued again during the claim is claimable at
    once: the delay was chosen from the state before that enqueue. -/
def released (delayMs : Option Int) (rec : WorkflowStartRecord) : WorkflowStartRecord :=
  let delay := if rec.requeued then 0 else max 0 (delayMs.getD 0)
  { unclaimed rec with availableAt := if delay > 0 then some (q.now + delay) else none }

def release (ref : WorkflowStartClaimRef) (delayMs : Option Int) :
    InMemoryWorkflowStartQueue × Bool :=
  match q.current ref with
  | none => (q, false)
  | some rec => ({ q with records := q.records.set ref.id (q.released delayMs rec) }, true)

def list (limit : Option Int) : InMemoryWorkflowStartQueue × List WorkflowStartRecord :=
  let q := q.reclaimStale
  (q, q.records.values.take (startListLimit limit).toNat)

end InMemoryWorkflowStartQueue

/-! ## The queue as a machine -/

/-- One call on the queue, or time passing. -/
inductive StartQueueOp where
  | advance (ms : Nat)
  | enqueue (p : WorkflowStartEnqueueParams) (random : List (Fin 36))
  | claim (p : WorkflowStartClaimParams) (uuids : Nat → String)
  | heartbeat (ref : WorkflowStartClaimRef)
  | complete (ref : WorkflowStartClaimRef)
  | release (ref : WorkflowStartClaimRef) (delayMs : Option Int)
  | list (limit : Option Int)

/-- What a call on the queue answers. -/
inductive StartQueueAnswer where
  | none
  | enqueued (result : Option WorkflowStartEnqueueResult)
  | claimed (result : Except String (List WorkflowStartRecord))
  | done (ok : Bool)
  | records (records : List WorkflowStartRecord)

def startQueue : Machine InMemoryWorkflowStartQueue StartQueueOp StartQueueAnswer where
  step q o := match o with
    | .advance ms => ({ q with now := q.now + ms }, .none)
    | .enqueue p random => let (q', result) := q.enqueue p random; (q', .enqueued result)
    | .claim p uuids => let (q', result) := q.claim p uuids; (q', .claimed result)
    | .heartbeat ref => let (q', ok) := q.heartbeat ref; (q', .done ok)
    | .complete ref => let (q', ok) := q.complete ref; (q', .done ok)
    | .release ref delayMs => let (q', ok) := q.release ref delayMs; (q', .done ok)
    | .list limit => let (q', records) := q.list limit; (q', .records records)

end Promin.Distributed

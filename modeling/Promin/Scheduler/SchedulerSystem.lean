import Promin.Scheduler.DurableScheduler

/-!
# Scheduler instances on one storage

The system is one storage, the tick streams that poll it, and the calls in flight: a
register or update between two of its storage calls, a manual fire between its loads
and its commit.  An operation is one storage call (or the planning after the loads)
of one stream or call, a pull or a stop by a stream's consumer, or time passing, so a
list of operations is an interleaving.

A stream acquires the lease, finds the due schedules, loads configs and states, plans,
hands its ticks to the consumer one pull at a time, and commits: everything once the
consumer pulls past the last tick, or the acknowledged part when it stops.
-/

namespace Promin.Scheduler

/-! ## Instances -/

/-- Settings of one scheduler instance. A partition is its index and the count. -/
structure DurableSchedulerConfig where
  instanceId : String
  leaderLockTtlMs : Int
  «namespace» : Option String := none
  batchSize : Nat := 100
  partition : Option (Nat × Nat) := none

def charCodes (text : String) : List Nat :=
  text.toList.flatMap fun c =>
    let n := c.toNat
    if n < 0x10000 then [n]
    else [0xd800 + (n - 0x10000) / 0x400, 0xdc00 + (n - 0x10000) % 0x400]

def schedulePartition (id : String) (count : Nat) : Nat :=
  let h : BitVec 32 := (charCodes id).foldl (fun h code => (h <<< 5) - h + BitVec.ofNat 32 code) 0
  h.toInt.natAbs % count

def targetIds (config : DurableSchedulerConfig) (scheduleId : Option String)
    (dueIds : List String) : List String :=
  (dueIds.filter fun id =>
    (if truthy scheduleId then scheduleId == some id else true) &&
    match config.partition with
    | some (index, count) => schedulePartition id count == index
    | none => true).take config.batchSize

/-! ## Poll batches -/

/-- The ticks of one poll and what to commit for them. -/
structure PollBatch where
  lease : LeaderLease
  plans : List PlannedSchedule

def PollBatch.ticks (batch : PollBatch) : List ScheduleTick :=
  batch.plans.flatMap (·.ticks)

/-- The plans to commit when the consumer acknowledged `acked` ticks, out of the plans
    whose ticks start at `start`: those without ticks, and those all of whose ticks were
    acknowledged. -/
def readyPlans (acked : Nat) : (start : Nat) → List PlannedSchedule → List PlannedSchedule
  | _, [] => []
  | start, plan :: rest =>
    let end_ := start + plan.ticks.length
    if plan.ticks.isEmpty || decide (end_ ≤ acked) then plan :: readyPlans acked end_ rest
    else readyPlans acked end_ rest

/-! ## The state -/

inductive StreamPhase where
  /-- Not running. -/
  | stopped
  /-- About to poll. -/
  | polling
  | acquired (lease : LeaderLease)
  | found (lease : LeaderLease) (ids : List String)
  | configsLoaded (lease : LeaderLease) (ids : List String)
      (configs : JsMap String DurableScheduleConfig)
  | loaded (lease : LeaderLease) (ids : List String)
      (configs : JsMap String DurableScheduleConfig) (states : JsMap String ScheduleState)
  /-- `index` ticks were handed out, `acked` of them acknowledged. -/
  | emitting (batch : PollBatch) (index acked : Nat)
  | committing (batch : PollBatch) (acked : Nat) (stopping : Bool)
  /-- After a commit: schedules with an error that are still to be disabled. -/
  | disabling (ids : List String) (stopping : Bool)
  | releasing

/-- What the streams of one instance share. -/
structure InstanceState where
  heldLease : Option LeaderLease := none
  activeStreams : Nat := 0

inductive ManualCall where
  | wantsConfig (scheduleId : String) (fire : ManualFire) (attempt : Nat)
  | wantsState (scheduleId : String) (fire : ManualFire) (attempt : Nat)
      (config : Option DurableScheduleConfig)
  | loaded (scheduleId : String) (fire : ManualFire) (attempt : Nat)
      (config : DurableScheduleConfig) (state : ScheduleState)

/-- A register or update in flight. -/
inductive AdminCall where
  /-- A register stored the config; the next run is to be seeded. -/
  | registered (scheduleId : String)
  | merged (config : DurableScheduleConfig)
  /-- An update stored its config; the next run is to be recomputed. -/
  | updated (config : DurableScheduleConfig)

/-- The fields an update changes; `none` leaves a field as it is. -/
structure SchedulePatch where
  name : Option (Option String) := none
  «namespace» : Option (Option String) := none
  cron : Option (Option String) := none
  rrule : Option (Option String) := none
  intervalMs : Option (Option Int) := none
  timezone : Option (Option String) := none
  enabled : Option (Option Bool) := none
  startAt : Option (Option Int) := none
  endAt : Option (Option Int) := none
  jitterMs : Option (Option Int) := none
  metadata : Option (Option JsValue) := none
  maxCatchUp : Option (Option Int) := none

def SchedulePatch.apply (patch : SchedulePatch) (current : DurableScheduleConfig) :
    DurableScheduleConfig where
  id := current.id
  name := patch.name.getD current.name
  «namespace» := patch.namespace.getD current.namespace
  cron := patch.cron.getD current.cron
  rrule := patch.rrule.getD current.rrule
  intervalMs := patch.intervalMs.getD current.intervalMs
  timezone := patch.timezone.getD current.timezone
  enabled := patch.enabled.getD current.enabled
  startAt := patch.startAt.getD current.startAt
  endAt := patch.endAt.getD current.endAt
  jitterMs := patch.jitterMs.getD current.jitterMs
  metadata := patch.metadata.getD current.metadata
  maxCatchUp := patch.maxCatchUp.getD current.maxCatchUp

/-- What does not change: the instances, which instance a stream belongs to, and the
    schedule a stream is limited to. -/
structure Deployment where
  calendar : Calendar
  config : Nat → DurableSchedulerConfig
  instanceOf : Nat → Nat
  scheduleId : Nat → Option String

/-- The storage, the instances, and everything in flight by number. -/
structure SchedulerSystem where
  storage : InMemorySchedulerStorage
  streams : Nat → StreamPhase
  instances : Nat → InstanceState
  manual : Nat → Option ManualCall
  admin : Nat → Option AdminCall

/-- Nothing stored, nothing running. -/
def SchedulerSystem.new (now : Int) : SchedulerSystem where
  storage := .new now
  streams _ := .stopped
  instances _ := {}
  manual _ := none
  admin _ := none

def setAt {α : Type} (f : Nat → α) (i : Nat) (a : α) : Nat → α :=
  fun j => if j = i then a else f j

@[simp] theorem setAt_self {α : Type} (f : Nat → α) (i : Nat) (a : α) : setAt f i a i = a := by
  simp [setAt]

theorem setAt_ne {α : Type} (f : Nat → α) {i j : Nat} (a : α) (h : j ≠ i) :
    setAt f i a j = f j := by
  simp [setAt, h]

/-! ## Operations and answers -/

/-- The moves of a tick stream. -/
inductive StreamOp where
  /-- The stream is pulled for the first time. -/
  | start
  | tryAcquireLeader
  | findDue
  | loadSchedules
  | loadScheduleStates
  /-- The loads are done: plan, and hand out the first tick. -/
  | plan (random : String → Rat)
  /-- The consumer pulls the next tick. -/
  | pull
  | commit (fails : Bool)
  /-- Disable the next schedule that could not be evaluated. -/
  | disable
  /-- The consumer stops. -/
  | stop
  /-- The finalizer's end: the last stream of an instance releases the lease. -/
  | release

/-- One step of a manual fire. -/
inductive ManualOp where
  | call (scheduleId : String) (fire : ManualFire)
  | loadSchedule
  | loadScheduleState
  | commit (fails : Bool)

/-- One step of a register or update, or a whole call of the others. -/
inductive AdminOp where
  /-- `register`, up to its first storage call. -/
  | register (instance_ : Nat) (config : DurableScheduleConfig) (newScheduleIncarnation : String)
  /-- The rest of `register`. -/
  | seed
  /-- `update`, up to its load. -/
  | update (scheduleId : String) (patch : SchedulePatch)
  /-- `update` stores the merged config. -/
  | store (newScheduleIncarnation : String)
  /-- The rest of `update`. -/
  | recompute
  | pause (scheduleId : String)
  | resume (scheduleId : String)
  | unregister (scheduleId : String)

/-- One operation of the system. -/
inductive SchedulerOp where
  | advance (ms : Nat)
  | stream (i : Nat) (o : StreamOp)
  | manual (i : Nat) (o : ManualOp)
  | admin (i : Nat) (o : AdminOp)

/-- What an operation hands out. -/
inductive SchedulerAnswer where
  | none
  /-- A stream delivers a tick. -/
  | delivered (tick : ScheduleTick)
  /-- A manual fire returns its ticks. -/
  | fired (ticks : List ScheduleTick)

namespace SchedulerSystem

/-! ## Streams -/

def toPhase (s : SchedulerSystem) (i : Nat) (phase : StreamPhase) : SchedulerSystem :=
  { s with streams := setAt s.streams i phase }

def afterCommit (stopping : Bool) : StreamPhase :=
  if stopping then .releasing else .polling

def disablingPhase (ids : List String) (stopping : Bool) : StreamPhase :=
  if ids.isEmpty then afterCommit stopping else .disabling ids stopping

variable (d : Deployment)

def pollLease (s : SchedulerSystem) (i : Nat) : SchedulerSystem :=
  let config := d.config (d.instanceOf i)
  let acquired := s.storage.tryAcquireLeader
    (schedulerLeaderKey config.namespace config.partition) config.instanceId
    config.leaderLockTtlMs
  let inst := s.instances (d.instanceOf i)
  { s with
    storage := acquired.1
    instances := setAt s.instances (d.instanceOf i) { inst with heldLease := acquired.2 }
    streams := setAt s.streams i (match acquired.2 with
      | some lease => .acquired lease
      | none => .polling) }

def pollDue (s : SchedulerSystem) (i : Nat) (lease : LeaderLease) : SchedulerSystem :=
  let config := d.config (d.instanceOf i)
  let fetchLimit := config.batchSize * (config.partition.map Prod.snd).getD 1
  let dueIds := s.storage.findDue s.storage.now fetchLimit config.namespace
  let ids := targetIds config (d.scheduleId i) dueIds
  s.toPhase i (if ids.isEmpty then .polling else .found lease ids)

def pollPlan (s : SchedulerSystem) (i : Nat) (lease : LeaderLease) (ids : List String)
    (configs : JsMap String DurableScheduleConfig) (states : JsMap String ScheduleState)
    (random : String → Rat) : SchedulerSystem × SchedulerAnswer :=
  let batch : PollBatch :=
    ⟨lease, planDueTicks d.calendar ids configs states s.storage.now random⟩
  match batch.ticks with
  | [] => (s.toPhase i (.committing batch 0 false), .none)
  | tick :: _ => (s.toPhase i (.emitting batch 1 0), .delivered tick)

def nextTick (s : SchedulerSystem) (i : Nat) (batch : PollBatch) (index : Nat) :
    SchedulerSystem × SchedulerAnswer :=
  match batch.ticks[index]? with
  | some tick => (s.toPhase i (.emitting batch (index + 1) index), .delivered tick)
  | none => (s.toPhase i (.committing batch index false), .none)

/-- Commit the plans that are ready. A commit that fails or is refused by the fence
    writes nothing, and its poll is over. -/
def commitBatch (s : SchedulerSystem) (i : Nat) (batch : PollBatch) (acked : Nat)
    (stopping fails : Bool) : SchedulerSystem :=
  let ready := readyPlans acked 0 batch.plans
  if ready.isEmpty || fails then s.toPhase i (afterCommit stopping)
  else
    let committed := s.storage.commitPoll (ready.map (·.commit)) (some batch.lease)
    match committed.2 with
    | .error _ => s.toPhase i (afterCommit stopping)
    | .ok _ =>
      let broken := (ready.filter fun plan => plan.error.isSome).map (·.id)
      { s with
        storage := committed.1
        streams := setAt s.streams i (disablingPhase broken stopping) }

/-- The consumer stops: commit what it acknowledged, if a batch is open. -/
def stopStream (s : SchedulerSystem) (i : Nat) : SchedulerSystem :=
  match s.streams i with
  | .stopped | .releasing => s
  | .emitting batch _ acked => s.toPhase i (.committing batch acked true)
  | .committing batch acked _ => s.toPhase i (.committing batch acked true)
  | .disabling ids _ => s.toPhase i (.disabling ids true)
  | _ => s.toPhase i .releasing

/-- Give the lease up when no other stream of the instance runs. -/
def releaseStream (s : SchedulerSystem) (i : Nat) : SchedulerSystem :=
  let inst := s.instances (d.instanceOf i)
  let active := inst.activeStreams - 1
  let lease := if active = 0 then inst.heldLease else none
  { s with
    storage := (match lease with
      | some lease => s.storage.releaseLeader lease
      | none => s.storage)
    instances := setAt s.instances (d.instanceOf i)
      { heldLease := if active = 0 then none else inst.heldLease, activeStreams := active }
    streams := setAt s.streams i .stopped }

def streamStep (s : SchedulerSystem) (i : Nat) (o : StreamOp) : SchedulerSystem × SchedulerAnswer :=
  match o, s.streams i with
  | .start, .stopped =>
    let inst := s.instances (d.instanceOf i)
    ({ s with
        instances := setAt s.instances (d.instanceOf i)
          { inst with activeStreams := inst.activeStreams + 1 }
        streams := setAt s.streams i .polling }, .none)
  | .tryAcquireLeader, .polling => (pollLease d s i, .none)
  | .findDue, .acquired lease => (pollDue d s i lease, .none)
  | .loadSchedules, .found lease ids =>
    (s.toPhase i (.configsLoaded lease ids (s.storage.loadSchedules ids)), .none)
  | .loadScheduleStates, .configsLoaded lease ids configs =>
    (s.toPhase i (.loaded lease ids configs (s.storage.loadScheduleStates ids)), .none)
  | .plan random, .loaded lease ids configs states =>
    pollPlan d s i lease ids configs states random
  | .pull, .emitting batch index _ => nextTick s i batch index
  | .commit fails, .committing batch acked stopping =>
    (commitBatch s i batch acked stopping fails, .none)
  | .disable, .disabling (id :: ids) stopping =>
    ({ s with
        storage := s.storage.setEnabled id false
        streams := setAt s.streams i (disablingPhase ids stopping) }, .none)
  | .stop, _ => (stopStream s i, .none)
  | .release, .releasing => (releaseStream d s i, .none)
  | _, _ => (s, .none)

/-! ## Manual fires -/

def manualFireAttempts : Nat := 10

def toManual (s : SchedulerSystem) (i : Nat) (call : Option ManualCall) : SchedulerSystem :=
  { s with manual := setAt s.manual i call }

/-- Commit a manual fire: its ticks are returned when nothing conflicts, else it tries
    again. -/
def fireCommit (s : SchedulerSystem) (i : Nat) (scheduleId : String) (fire : ManualFire)
    (attempt : Nat) (config : DurableScheduleConfig) (state : ScheduleState) (fails : Bool) :
    SchedulerSystem × SchedulerAnswer :=
  let now := s.storage.now
  match fire.occurrences d.calendar config now with
  | .error _ => (s.toManual i none, .none)
  | .ok occurrences =>
    if occurrences.isEmpty then (s.toManual i none, .fired [])
    else if fails then (s.toManual i none, .none)
    else
      let ticks := manualTicks scheduleId config state now occurrences
      let committed := s.storage.commitPoll [manualCommit scheduleId state now ticks] none
      let s := { s with storage := committed.1 }
      match committed.2 with
      | .ok [] => (s.toManual i none, .fired ticks)
      | .ok _ =>
        if attempt + 1 < manualFireAttempts then
          (s.toManual i (some (.wantsConfig scheduleId fire (attempt + 1))), .none)
        else (s.toManual i none, .none)
      | .error _ => (s.toManual i none, .none)

def manualStep (s : SchedulerSystem) (i : Nat) (o : ManualOp) : SchedulerSystem × SchedulerAnswer :=
  match o, s.manual i with
  | .call scheduleId fire, none =>
    (s.toManual i (some (.wantsConfig scheduleId fire 0)), .none)
  | .loadSchedule, some (.wantsConfig scheduleId fire attempt) =>
    (s.toManual i (some (.wantsState scheduleId fire attempt
      (s.storage.loadSchedule scheduleId))), .none)
  | .loadScheduleState, some (.wantsState scheduleId fire attempt config) =>
    (s.toManual i (match config, s.storage.loadScheduleState scheduleId with
      | some config, some state => some (.loaded scheduleId fire attempt config state)
      | _, _ => none), .none)
  | .commit fails, some (.loaded scheduleId fire attempt config state) =>
    fireCommit d s i scheduleId fire attempt config state fails
  | _, _ => (s, .none)

/-! ## Schedule management -/

def toAdmin (s : SchedulerSystem) (i : Nat) (call : Option AdminCall) : SchedulerSystem :=
  { s with admin := setAt s.admin i call }

def register (s : SchedulerSystem) (i instance_ : Nat) (config : DurableScheduleConfig)
    (token : String) : SchedulerSystem :=
  match validateScheduleConfig d.calendar config with
  | .error _ => s
  | .ok () =>
    let ns := config.namespace <|> (d.config instance_).namespace
    { s with
      storage := s.storage.upsertSchedule { config with «namespace» := ns } token
      admin := setAt s.admin i (if config.isEnabled then some (.registered config.id) else none) }

def loadUpdate (s : SchedulerSystem) (i : Nat) (scheduleId : String) (patch : SchedulePatch) :
    SchedulerSystem :=
  match s.storage.loadSchedule scheduleId with
  | none => s
  | some current =>
    let merged := { patch.apply current with id := scheduleId }
    match validateScheduleConfig d.calendar merged with
    | .error _ => s
    | .ok () => s.toAdmin i (some (.merged merged))

def adminStep (s : SchedulerSystem) (i : Nat) (o : AdminOp) : SchedulerSystem :=
  match o, s.admin i with
  | .register instance_ config token, none => register d s i instance_ config token
  | .seed, some (.registered scheduleId) =>
    { s with
      storage := s.storage.setNextRun scheduleId (some s.storage.now)
      admin := setAt s.admin i none }
  | .update scheduleId patch, none => loadUpdate d s i scheduleId patch
  | .store token, some (.merged config) =>
    { s with
      storage := s.storage.upsertSchedule config token
      admin := setAt s.admin i (if config.isEnabled then some (.updated config) else none) }
  | .recompute, some (.updated config) =>
    match computeNextRun d.calendar config s.storage.now with
    | .error _ => s.toAdmin i none
    | .ok nextRun =>
      { s with
        storage := s.storage.setNextRun config.id nextRun
        admin := setAt s.admin i none }
  | .pause scheduleId, none => { s with storage := s.storage.setEnabled scheduleId false }
  | .resume scheduleId, none => { s with storage := s.storage.setEnabled scheduleId true }
  | .unregister scheduleId, none => { s with storage := s.storage.deleteSchedule scheduleId }
  | _, _ => s

end SchedulerSystem

/-- Schedulers on one storage, in any interleaving. -/
def schedulerSystem (d : Deployment) : Machine SchedulerSystem SchedulerOp SchedulerAnswer where
  step s o := match o with
    | .advance ms => ({ s with storage := s.storage.advance ms }, .none)
    | .stream i o => s.streamStep d i o
    | .manual i o => s.manualStep d i o
    | .admin i o => (s.adminStep d i o, .none)

end Promin.Scheduler

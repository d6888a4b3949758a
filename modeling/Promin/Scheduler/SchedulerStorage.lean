import Promin.ForStd.Machine
import Promin.Scheduler.ScheduleConfig
import Promin.ForStd.JsMap

/-!
# Scheduler storage

`InMemorySchedulerStorage`: schedule configs, their fire state, the due index
(`nextRun`) and the tick log, each a map by schedule id, and the leader leases
that fence a commit.
-/

/-!
## Leader leases

`InMemoryLeaderLeases`: TTL'd leadership over a string key, fenced by an epoch
that goes up every time a new lease starts on the key.
-/

namespace Promin.Scheduler

/-- Leadership of one key, held until it expires or is released. -/
structure LeaderLease where
  key : String
  instanceId : String
  epoch : Int
  deriving DecidableEq

/-- The stored lease of one key. `instanceId` is `none` once released. -/
structure LeaseRecord where
  instanceId : Option String
  epoch : Int
  expiresAt : Int
  deriving DecidableEq

/-- A fenced write was attempted with a lease that is no longer current. -/
structure StaleLeaseError where
  lease : LeaderLease
  currentEpoch : Option Int
  deriving DecidableEq

def StaleLeaseError.message (e : StaleLeaseError) : String :=
  "Lease \"" ++ e.lease.key ++ "\" epoch " ++ toString e.lease.epoch ++ " held by \"" ++
    e.lease.instanceId ++ "\" is stale (current epoch: " ++
    (match e.currentEpoch with
      | some n => toString n
      | none => "none") ++ "); the write was rejected"

/-- The characters `encodeURIComponent` keeps. -/
def unreserved (c : Char) : Bool :=
  c.isAlphanum || "-_.!~*()".toList.contains c || c == '\x27'

def percentByte (b : UInt8) : String :=
  let hex (n : Nat) : Char := Char.ofNat (if n < 10 then 48 + n else 55 + n)
  String.ofList ['%', hex (b.toNat / 16), hex (b.toNat % 16)]

def encodeURIComponent (text : String) : String :=
  String.join (text.toList.map fun c =>
    if unreserved c then c.toString else String.join ((String.utf8EncodeChar c).map percentByte))

/-- Lease key of a poll loop: each namespace, and each partition (index and count) of a
    partitioned scheduler, has its own. -/
def schedulerLeaderKey (ns : Option String) (partition : Option (Nat × Nat)) : String :=
  "scheduler/" ++
    (match ns with
      | none => "-"
      | some ns => "ns:" ++ encodeURIComponent ns) ++
    (match partition with
      | some (index, count) => "/p" ++ toString index ++ "of" ++ toString count
      | none => "")

structure InMemoryLeaderLeases where
  records : JsMap String LeaseRecord

namespace InMemoryLeaderLeases

def new : InMemoryLeaderLeases := ⟨JsMap.empty⟩

def acquire (l : InMemoryLeaderLeases) (now : Int) (key instanceId : String) (ttlMs : Int) :
    InMemoryLeaderLeases × Option LeaderLease :=
  let expiresAt := now + max 0 ttlMs
  match l.records.get key with
  | none =>
    (⟨l.records.set key ⟨some instanceId, 1, expiresAt⟩⟩, some ⟨key, instanceId, 1⟩)
  | some record =>
    let live := record.instanceId.isSome && decide (record.expiresAt > now)
    if live && record.instanceId != some instanceId then (l, none)
    else
      let epoch := if live then record.epoch else record.epoch + 1
      (⟨l.records.set key ⟨some instanceId, epoch, expiresAt⟩⟩, some ⟨key, instanceId, epoch⟩)

def releaseLeader (l : InMemoryLeaderLeases) (now : Int) (lease : LeaderLease) :
    InMemoryLeaderLeases :=
  match l.records.get lease.key with
  | none => l
  | some record =>
    if record.epoch ≠ lease.epoch then l
    else if record.instanceId ≠ some lease.instanceId then l
    else ⟨l.records.set lease.key { record with instanceId := none, expiresAt := now }⟩

/-- The key's current epoch, or `none` when it has never been leased. -/
def currentEpoch (l : InMemoryLeaderLeases) (key : String) : Option Int :=
  (l.records.get key).map (·.epoch)

/-- Rejects unless `lease` is the key's current lease. -/
def assertCurrent (l : InMemoryLeaderLeases) (lease : LeaderLease) :
    Except StaleLeaseError Unit :=
  let current := l.currentEpoch lease.key
  if current ≠ some lease.epoch then .error ⟨lease, current⟩ else .ok ()

end InMemoryLeaderLeases

end Promin.Scheduler

namespace Promin.Scheduler

/-- Why a schedule last failed to fire. -/
structure ScheduleError where
  message : String
  at_ : Int
  deriving DecidableEq

/-- A schedule's stored fire state. -/
structure ScheduleState where
  lastFired : Option Int
  /-- Fires so far in this incarnation; the next tick takes this number. -/
  tickCount : Nat
  incarnation : String
  lastError : Option ScheduleError
  deriving DecidableEq

/-- One schedule's entry in a `commitPoll` batch. The outer option of `nextRun` and
    `lastError` is whether the field is given, the inner one is `null`. -/
structure ScheduleCommit where
  id : String
  firedAt : Option Int := none
  tickIncrement : Option Nat := none
  nextRun : Option (Option Int) := none
  expectedTickCount : Option Nat := none
  expectedIncarnation : Option String := none
  lastError : Option (Option ScheduleError) := none
  ticks : List ScheduleTick := []

structure InMemorySchedulerStorage where
  now : Int
  schedules : JsMap String DurableScheduleConfig
  state : JsMap String ScheduleState
  /-- Next run by id; missing: not in due-tracking. -/
  nextRun : JsMap String Int
  leases : InMemoryLeaderLeases
  /-- Tick log by schedule, in append order. -/
  ticks : JsMap String (List ScheduleTick)

namespace InMemorySchedulerStorage

/-- An empty storage whose clock reads `now`. -/
def new (now : Int) : InMemorySchedulerStorage :=
  ⟨now, .empty, .empty, .empty, .new, .empty⟩

/-! ## Reads -/

variable (s : InMemorySchedulerStorage)

/-- Ids of the due, enabled schedules of a namespace, oldest `nextRun` first. -/
def findDue (now : Int) (limit : Nat) (ns : Option String) : List String :=
  let due := s.nextRun.entries.filter fun e =>
    decide (e.2 ≤ now) &&
    match s.schedules.get e.1 with
    | none => false
    | some cfg => cfg.isEnabled && cfg.namespace == ns
  ((due.insertionSort fun a b => a.2 ≤ b.2).take limit).map Prod.fst

def loadSchedule (id : String) : Option DurableScheduleConfig :=
  s.schedules.get id

def loadSchedules (ids : List String) : JsMap String DurableScheduleConfig :=
  .ofKeys s.schedules.get ids

/-- The state of a schedule that is configured. -/
def loadScheduleState (id : String) : Option ScheduleState :=
  if s.schedules.has id then s.state.get id else none

def loadScheduleStates (ids : List String) : JsMap String ScheduleState :=
  .ofKeys s.loadScheduleState ids

/-! ## Fire state and due-tracking -/

def recordFire (id : String) (firedAt : Int) (count : Nat) : InMemorySchedulerStorage :=
  match s.state.get id with
  | none => s
  | some prev =>
    { s with
      state := s.state.set id
        { prev with lastFired := some firedAt, tickCount := prev.tickCount + count } }

/-- Put a schedule into due-tracking, or take it out. -/
def setNextRun (id : String) (nextRun : Option Int) : InMemorySchedulerStorage :=
  match nextRun with
  | none => { s with nextRun := s.nextRun.delete id }
  | some at_ => { s with nextRun := s.nextRun.set id at_ }

def mismatched (u : ScheduleCommit) (state : Option ScheduleState) : Bool :=
  (u.expectedTickCount.isSome || u.expectedIncarnation.isSome) &&
  match state with
  | none => true
  | some state =>
    (u.expectedTickCount.isSome && u.expectedTickCount != some state.tickCount) ||
    (u.expectedIncarnation.isSome && u.expectedIncarnation != some state.incarnation)

def tickKey (t : ScheduleTick) : String := t.incarnation ++ "." ++ toString t.tickNumber

def appendTicks (log ticks : List ScheduleTick) : List ScheduleTick :=
  log ++ ticks.filter fun t => !(log.map tickKey).contains (tickKey t)

def committedState (u : ScheduleCommit) (state : ScheduleState) : ScheduleState :=
  let next := match u.firedAt, u.tickIncrement with
    | some firedAt, some increment =>
      if increment > 0 then
        { state with lastFired := some firedAt, tickCount := state.tickCount + increment }
      else state
    | _, _ => state
  match u.lastError with
  | some lastError => { next with lastError := lastError }
  | none => next

/-- The due index after a commit entry for a stored schedule. A schedule paused since
    the poll loaded it stays out of due-tracking. -/
def committedNextRun (u : ScheduleCommit) (cfg : DurableScheduleConfig) : JsMap String Int :=
  if !cfg.isEnabled || u.nextRun == some none then s.nextRun.delete u.id
  else match u.nextRun with
    | some (some at_) => s.nextRun.set u.id at_
    | _ => s.nextRun

def applyCommit (u : ScheduleCommit) (cfg : DurableScheduleConfig) (state : ScheduleState) :
    InMemorySchedulerStorage :=
  { s with
    state := s.state.set u.id (committedState u state)
    nextRun := s.committedNextRun u cfg
    ticks :=
      if u.ticks.isEmpty then s.ticks
      else s.ticks.set u.id (appendTicks ((s.ticks.get u.id).getD []) u.ticks) }

def commitEntry (u : ScheduleCommit) : InMemorySchedulerStorage × Bool :=
  let cfg := s.schedules.get u.id
  let state := if cfg.isSome then s.state.get u.id else none
  if mismatched u state then (s, true)
  else match cfg, state with
    | some cfg, some state => (s.applyCommit u cfg state, false)
    -- deleted since the poll loaded it
    | _, _ => ({ s with nextRun := s.nextRun.delete u.id }, false)

def commitEntries (s : InMemorySchedulerStorage) :
    List ScheduleCommit → InMemorySchedulerStorage × List String
  | [] => (s, [])
  | u :: rest =>
    let after := s.commitEntry u
    let result := commitEntries after.1 rest
    (result.1, if after.2 then u.id :: result.2 else result.2)

/-- Commits the updates of a poll, under a lease that is still current. -/
def commitPoll (updates : List ScheduleCommit) (lease : Option LeaderLease) :
    InMemorySchedulerStorage × Except StaleLeaseError (List String) :=
  let fence := match lease with
    | some lease => s.leases.assertCurrent lease
    | none => .ok ()
  match fence with
  | .error e => (s, .error e)
  | .ok () => let (s', conflicts) := s.commitEntries updates; (s', .ok conflicts)

/-! ## Admin calls -/

def seedNextRun (config : DurableScheduleConfig) : InMemorySchedulerStorage :=
  if s.nextRun.has config.id then s
  else { s with nextRun := s.nextRun.set config.id (max s.now (config.startAt.getD 0)) }

/-- The fire state an upsert stores: a replace keeps it, an insert starts a new
    incarnation. The config changed either way, so its last error is moot. -/
def upsertedState (prev : Option ScheduleState) (newScheduleIncarnation : String) :
    ScheduleState :=
  match prev with
  | some prev => { prev with lastError := none }
  | none => ⟨none, 0, newScheduleIncarnation, none⟩

def upsertSchedule (config : DurableScheduleConfig) (newScheduleIncarnation : String) :
    InMemorySchedulerStorage :=
  let enabled := config.isEnabled
  let s := { s with
    schedules := s.schedules.set config.id { config with enabled := some enabled }
    state := s.state.set config.id
      (upsertedState (s.state.get config.id) newScheduleIncarnation) }
  if !enabled then { s with nextRun := s.nextRun.delete config.id }
  else s.seedNextRun config

def insertSchedule (config : DurableScheduleConfig) (newScheduleIncarnation : String) :
    InMemorySchedulerStorage × Bool :=
  if s.schedules.has config.id then (s, false)
  else (s.upsertSchedule config newScheduleIncarnation, true)

def deleteSchedule (id : String) : InMemorySchedulerStorage :=
  { s with
    schedules := s.schedules.delete id
    state := s.state.delete id
    nextRun := s.nextRun.delete id
    ticks := s.ticks.delete id }

def setEnabled (id : String) (enabled : Bool) : InMemorySchedulerStorage :=
  match s.schedules.get id with
  | none => s
  | some cfg =>
    let s := { s with schedules := s.schedules.set id { cfg with enabled := some enabled } }
    if !enabled then { s with nextRun := s.nextRun.delete id } else s.seedNextRun cfg

/-! ## Leases and time -/

def tryAcquireLeader (key instanceId : String) (ttlMs : Int) :
    InMemorySchedulerStorage × Option LeaderLease :=
  let (leases, lease) := s.leases.acquire s.now key instanceId ttlMs
  ({ s with leases := leases }, lease)

def releaseLeader (lease : LeaderLease) :
    InMemorySchedulerStorage :=
  { s with leases := s.leases.releaseLeader s.now lease }

/-- Time passes. -/
def advance (ms : Nat) : InMemorySchedulerStorage :=
  { s with now := s.now + ms }

end InMemorySchedulerStorage

/-! ## The storage as a machine -/

/-- One call on the storage, or time passing. -/
inductive SchedulerStorageOp where
  | advance (ms : Nat)
  | tryAcquireLeader (key instanceId : String) (ttlMs : Int)
  | releaseLeader (lease : LeaderLease)
  | commitPoll (updates : List ScheduleCommit) (lease : Option LeaderLease)
  | upsertSchedule (config : DurableScheduleConfig) (newScheduleIncarnation : String)
  | insertSchedule (config : DurableScheduleConfig) (newScheduleIncarnation : String)
  | deleteSchedule (id : String)
  | setEnabled (id : String) (enabled : Bool)
  | setNextRun (id : String) (nextRun : Option Int)
  | recordFire (id : String) (firedAt : Int) (count : Nat)

/-- What a call on the storage answers. -/
inductive SchedulerStorageAnswer where
  | none
  | lease (lease : Option LeaderLease)
  | committed (result : Except StaleLeaseError (List String))
  | inserted (ok : Bool)

def schedulerStorage :
    Machine InMemorySchedulerStorage SchedulerStorageOp SchedulerStorageAnswer where
  step s o := match o with
    | .advance ms => (s.advance ms, .none)
    | .tryAcquireLeader key instanceId ttlMs =>
      let (s', lease) := s.tryAcquireLeader key instanceId ttlMs; (s', .lease lease)
    | .releaseLeader lease => (s.releaseLeader lease, .none)
    | .commitPoll updates lease =>
      let (s', result) := s.commitPoll updates lease; (s', .committed result)
    | .upsertSchedule config token => (s.upsertSchedule config token, .none)
    | .insertSchedule config token =>
      let (s', ok) := s.insertSchedule config token; (s', .inserted ok)
    | .deleteSchedule id => (s.deleteSchedule id, .none)
    | .setEnabled id enabled => (s.setEnabled id enabled, .none)
    | .setNextRun id nextRun => (s.setNextRun id nextRun, .none)
    | .recordFire id firedAt count => (s.recordFire id firedAt count, .none)

end Promin.Scheduler

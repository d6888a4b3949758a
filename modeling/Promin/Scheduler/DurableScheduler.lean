import Promin.Scheduler.SchedulerStorage

/-!
# Poll planning of the durable scheduler

What one poll decides for the due schedules, and what a manual fire records.
-/

namespace Promin.Scheduler

/-! ## Missed occurrences -/

variable (cal : Calendar)

def missedCronOccurrences (config : DurableScheduleConfig) (now lastFired : Int) (limit : Nat) :
    Except ThrownError (List Int) := do
  let cron ← cal.cron (config.cron.getD "") config.zone
  -- `previousRuns` looks strictly before its reference at second precision
  let runs ← cron.previousRuns (limit + 2) (now + 1000)
  return ((runs.filter fun d => decide (d > lastFired) && decide (d ≤ now)).take limit).reverse

def missedRruleOccurrences (config : DurableScheduleConfig) (now lastFired : Int) (limit : Nat) :
    Except ThrownError (List Int) := do
  let parsed ← cal.rrule (config.rrule.getD "")
  let rule := parsed now
  if limit = 1 then
    match rule.before now true with
    | some latest => return if latest > lastFired then [latest] else []
    | none => return []
  else
    let runs := (rule.between lastFired now true).filter fun d => decide (d > lastFired)
    return runs.drop (runs.length - limit)

def missedIntervalOccurrences (intervalMs now lastFired : Int) (limit : Nat) : List Int :=
  let missed := (now - lastFired) / intervalMs
  if missed < 1 then []
  else
    let count := min (limit : Int) missed
    (List.range count.toNat).map fun (i : Nat) =>
      lastFired + (missed - count + 1 + (i : Int)) * intervalMs

def missedOccurrences (config : DurableScheduleConfig) (now lastFired : Int) (limit : Nat) :
    Except ThrownError (List Int) :=
  if truthy config.cron then missedCronOccurrences cal config now lastFired limit
  else if truthy config.rrule then missedRruleOccurrences cal config now lastFired limit
  else match config.intervalMs with
    | some intervalMs => .ok (missedIntervalOccurrences intervalMs now lastFired limit)
    | none => .ok []

/-! ## Due ticks and the next run -/

def makeTick (config : DurableScheduleConfig) (scheduledAt firedAt : Int)
    (incarnation : String) (tickNumber : Nat) : ScheduleTick :=
  ⟨config.id, config.name, scheduledAt, firedAt, incarnation, tickNumber, config.metadata⟩

def numberTicks (config : DurableScheduleConfig) (firedAt : Int) (incarnation : String)
    (tickCount : Nat) (occurrences : List Int) : List ScheduleTick :=
  occurrences.zipIdx.map fun p => makeTick config p.1 firedAt incarnation (tickCount + p.2)

/-- How many missed occurrences fire: `max(1, maxCatchUp)`. -/
def catchUpLimit (config : DurableScheduleConfig) : Nat :=
  (max 1 (config.maxCatchUp.getD 0)).toNat

/-- The occurrences that should fire now: none outside the schedule's window, now for
    one that never fired, else the missed ones. -/
def dueOccurrences (config : DurableScheduleConfig) (lastFired : Option Int) (now : Int) :
    Except ThrownError (List Int) :=
  if config.startAt.any fun startAt => decide (now < startAt) then .ok []
  else if config.endAt.any fun endAt => decide (now > endAt) then .ok []
  else match lastFired with
    | none => .ok [now]
    | some lastFired => missedOccurrences cal config now lastFired (catchUpLimit config)

def computeDueTicks (config : DurableScheduleConfig) (lastFired : Option Int) (tickCount : Nat)
    (incarnation : String) (now : Int) : Except ThrownError (List ScheduleTick) :=
  (dueOccurrences cal config lastFired now).map (numberTicks config now incarnation tickCount)

/-- The first occurrence of the trigger after `now`. -/
def nextOccurrence (config : DurableScheduleConfig) (now : Int) : Except ThrownError (Option Int) :=
  if truthy config.cron then do
    let cron ← cal.cron (config.cron.getD "") config.zone
    cron.nextRun now
  else if truthy config.rrule then do
    let parsed ← cal.rrule (config.rrule.getD "")
    return (parsed now).after now false
  else match config.intervalMs with
    | some intervalMs => .ok (some (now + intervalMs))
    | none => .ok none

def clampNextRun (config : DurableScheduleConfig) (candidate : Int) : Option Int :=
  if config.endAt.any fun endAt => decide (candidate ≥ endAt) then none
  else match config.startAt with
    | some startAt => if candidate < startAt then some startAt else some candidate
    | none => some candidate

def computeNextRun (config : DurableScheduleConfig) (now : Int) : Except ThrownError (Option Int) :=
  if config.endAt.any fun endAt => decide (now ≥ endAt) then .ok none
  else (nextOccurrence cal config now).map fun candidate => candidate.bind (clampNextRun config)

/-- The next run pushed back by the schedule's jitter, never past `endAt`. -/
def jitterNextRun (config : DurableScheduleConfig) (nextRun : Option Int) (random : Rat) :
    Option Int :=
  nextRun.map fun nextRun =>
    let delay := jitterDelayMs config random
    if delay = 0 then nextRun
    else
      let jittered := nextRun + delay
      let capped := match config.endAt with
        | some endAt => min jittered endAt
        | none => jittered
      max capped nextRun

/-! ## Plans -/

/-- What one poll decided for one due schedule. -/
structure PlannedSchedule where
  id : String
  ticks : List ScheduleTick
  commit : ScheduleCommit
  error : Option ThrownError := none

def dropPlan (id : String) : PlannedSchedule where
  id := id
  ticks := []
  commit := { id := id, nextRun := some none }

def duePlan (id : String) (state : ScheduleState) (due : List ScheduleTick)
    (nextRun : Option Int) : PlannedSchedule where
  id := id
  ticks := due
  commit :=
    { id := id
      firedAt := due.getLast?.map (·.firedAt)
      tickIncrement := if due.length > 0 then some due.length else none
      expectedTickCount := if due.length > 0 then some state.tickCount else none
      expectedIncarnation := if due.length > 0 then some state.incarnation else none
      nextRun := some nextRun
      ticks := due }

def errorPlan (id : String) (state : ScheduleState) (error : ThrownError) (now : Int) :
    PlannedSchedule where
  id := id
  ticks := []
  commit :=
    { id := id
      nextRun := some none
      expectedIncarnation := some state.incarnation
      lastError := some (some ⟨error.message, now⟩) }
  error := some error

def planSchedule (config : DurableScheduleConfig) (state : ScheduleState) (now : Int) (random : Rat)
    : Except ThrownError (List ScheduleTick × Option Int) := do
  let due ← computeDueTicks cal config state.lastFired state.tickCount state.incarnation now
  let nextRun ← computeNextRun cal config now
  return (due, jitterNextRun config nextRun random)

def planDueTick (config : Option DurableScheduleConfig) (state : Option ScheduleState) (now : Int)
    (random : Rat) (id : String) : PlannedSchedule :=
  match config, state with
  | some config, some state =>
    if !config.isEnabled then dropPlan id
    else match planSchedule cal config state now random with
      | .ok (due, nextRun) => duePlan id state due nextRun
      | .error error => errorPlan id state error now
  | _, _ => dropPlan id

def planDueTicks (ids : List String) (configs : JsMap String DurableScheduleConfig)
    (states : JsMap String ScheduleState) (now : Int) (random : String → Rat) :
    List PlannedSchedule :=
  ids.map fun id => planDueTick cal (configs.get id) (states.get id) now (random id) id

/-! ## Manual fires -/

inductive ManualFire where
  | triggerNow
  | backfill (from_ to_ : Int)

/-- The cron occurrences after `cursor` and before `to_`: each round moves the cursor
    past the occurrence it found, so `fuel` rounds for `fuel` milliseconds suffice. -/
def backfillCron (cron : Cron) (to_ : Int) : (fuel : Nat) → (cursor : Int) →
    Except ThrownError (List Int)
  | 0, _ => .ok []
  | fuel + 1, cursor =>
    if cursor < to_ then do
      match ← cron.nextRun cursor with
      | none => return []
      | some next =>
        if next ≥ to_ then return []
        else return next :: (← backfillCron cron to_ fuel (next + 1))
    else .ok []

def ManualFire.occurrences (config : DurableScheduleConfig) (now : Int) :
    ManualFire → Except ThrownError (List Int)
  | .triggerNow => .ok [now]
  | .backfill from_ to_ =>
    if truthy config.cron then do
      let cron ← cal.cron (config.cron.getD "") config.zone
      backfillCron cron to_ (to_ - from_).toNat from_
    else if truthy config.rrule then do
      let parsed ← cal.rrule (config.rrule.getD "")
      return (parsed now).between from_ to_ false
    else .ok []

/-- The commit of a manual fire's ticks, guarded by the state they were numbered from.
    `nextRun` is left as it is. -/
def manualCommit (scheduleId : String) (state : ScheduleState) (now : Int)
    (ticks : List ScheduleTick) : ScheduleCommit where
  id := scheduleId
  firedAt := some now
  tickIncrement := some ticks.length
  expectedTickCount := some state.tickCount
  expectedIncarnation := some state.incarnation
  ticks := ticks

def manualTicks (scheduleId : String) (config : DurableScheduleConfig) (state : ScheduleState)
    (now : Int) (occurrences : List Int) : List ScheduleTick :=
  numberTicks { config with id := scheduleId } now state.incarnation state.tickCount occurrences

end Promin.Scheduler

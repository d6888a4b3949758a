import Promin.Shared.JsValue

/-!
# Schedules and their triggers

`DurableScheduleConfig`, the tick a schedule emits, and the checks on a config.
-/

namespace Promin.Scheduler

/-- A value the code throws, as its name and message. -/
structure ThrownError where
  name : String
  message : String

def ThrownError.text (e : ThrownError) : String := e.name ++ ": " ++ e.message

/-! ## The calendar libraries -/

/-- A parsed cron expression in a timezone. -/
structure Cron where
  /-- The newest `n` occurrences strictly before the instant, newest first. -/
  previousRuns : Nat → Int → Except ThrownError (List Int)
  /-- The first occurrence strictly after the instant. -/
  nextRun : Int → Except ThrownError (Option Int)

/-- A parsed recurrence rule. The flag of each call includes the bounds. -/
structure RRule where
  before : Int → Bool → Option Int
  after : Int → Bool → Option Int
  between : Int → Int → Bool → List Int

/-- The calendar libraries: `new Cron(pattern, { timezone })`, and
    `RRule.fromString(text)` evaluated at an instant (a rule without a start date
    starts when it is parsed). -/
structure Calendar where
  cron : String → String → Except ThrownError Cron
  rrule : String → Except ThrownError (Int → RRule)

/-! ## Configs and ticks -/

structure DurableScheduleConfig where
  id : String
  name : Option String := none
  «namespace» : Option String := none
  cron : Option String := none
  rrule : Option String := none
  intervalMs : Option Int := none
  timezone : Option String := none
  enabled : Option Bool := none
  startAt : Option Int := none
  endAt : Option Int := none
  jitterMs : Option Int := none
  metadata : Option JsValue := none
  maxCatchUp : Option Int := none
  deriving DecidableEq

namespace DurableScheduleConfig

def isEnabled (config : DurableScheduleConfig) : Bool := config.enabled != some false

/-- `config.timezone ?? "UTC"`. -/
def zone (config : DurableScheduleConfig) : String := config.timezone.getD "UTC"

end DurableScheduleConfig

/-- Emitted when a schedule fires. -/
structure ScheduleTick where
  scheduleId : String
  scheduleName : Option String
  scheduledAt : Int
  firedAt : Int
  incarnation : String
  tickNumber : Nat
  metadata : Option JsValue
  deriving DecidableEq

def scheduleTickRunId (tick : ScheduleTick) : String :=
  tick.scheduleId ++ "." ++ tick.incarnation ++ "." ++ toString tick.tickNumber

/-! ## Validation -/

/-- A check that fails throws an `Error`. -/
def check (ok : Bool) (message : String) : Except ThrownError Unit :=
  if ok then .ok () else .error ⟨"Error", message⟩

def checkTriggers (config : DurableScheduleConfig) : Except ThrownError Unit := do
  let triggers := (truthy config.cron).toNat + (truthy config.rrule).toNat +
    config.intervalMs.isSome.toNat
  check (triggers != 0)
    ("Schedule \"" ++ config.id ++ "\" must have one of: cron, rrule, or intervalMs")
  check (decide (triggers ≤ 1))
    ("Schedule \"" ++ config.id ++ "\" must have exactly one of: cron, rrule, or intervalMs")

def checkParses {α : Type} (field : Option String) (parsed : Except ThrownError α)
    (kind id : String) : Except ThrownError Unit :=
  if truthy field then
    match parsed with
    | .ok _ => .ok ()
    | .error e =>
      check false ("Invalid " ++ kind ++ " \"" ++ field.getD "" ++ "\" for schedule \"" ++ id ++
        "\": " ++ e.text)
  else .ok ()

def checkNumber (field : Option Int) (accepted : Int → Bool) (name must id : String) :
    Except ThrownError Unit :=
  match field with
  | some n =>
    check (accepted n) ("Invalid " ++ name ++ " " ++ toString n ++ " for schedule \"" ++ id ++
      "\": must be " ++ must)
  | none => .ok ()

def validateScheduleConfig (cal : Calendar) (config : DurableScheduleConfig) :
    Except ThrownError Unit := do
  checkTriggers config
  checkParses config.cron (cal.cron (config.cron.getD "") config.zone) "cron expression" config.id
  checkParses config.rrule (cal.rrule (config.rrule.getD "")) "RRULE" config.id
  checkNumber config.intervalMs (fun n => decide (0 < n)) "intervalMs" "a positive number"
    config.id
  checkNumber config.jitterMs (fun n => decide (0 ≤ n)) "jitterMs" ">= 0" config.id
  checkNumber config.maxCatchUp (fun n => decide (0 ≤ n)) "maxCatchUp" "an integer >= 0" config.id

/-- Random emission delay of one tick for a draw in `[0, 1)`. -/
def jitterDelayMs (config : DurableScheduleConfig) (random : Rat) : Int :=
  let jitterMs := config.jitterMs.getD 0
  if jitterMs ≤ 0 then 0 else (random * jitterMs).floor

end Promin.Scheduler

import Mathlib.Algebra.Group.Nat.Defs
import Mathlib.Algebra.Group.Int.Defs
import Promin.ForStd.JsMap
import Promin.ForStd.Machine

/-!
# The poll loop

`PollLoop`: one background loop of ticks with a wait after each, `wake` and
`stop`.
-/

namespace Promin.Shared

/-- What a tick asks the loop to do next; a tick without a result asks for `idle`. -/
inductive PollTickResult where
  | again
  | stop
  | idle

structure PollLoopConfig where
  intervalMs : Nat
  maxBackoffMs : Nat := max 30000 intervalMs
  /-- The idle wait with jitter, from the interval and a draw of the random source. -/
  jitter : Option (Nat → Nat → Nat) := none

/-- Where the run of a loop is. -/
inductive LoopPhase where
  /-- Its tick is in flight; the wait after it is drawn already. -/
  | ticking (delayMs : Nat)
  /-- The error hook was called. -/
  | reporting (delayMs : Nat)
  | sleeping
  /-- Its sleep has resolved. -/
  | woken
  /-- It has returned. -/
  | over
  deriving DecidableEq

/-- A call of `run` with its local variable. -/
structure LoopRun where
  consecutiveFailures : Nat
  phase : LoopPhase

/-- The fields of the loop, the runs in flight, the timers of the clock and the calls of
    `stop`. -/
structure PollLoop where
  intervalMs : Nat
  stopping : Bool
  wakeRequested : Bool
  loopPromise : Option Nat
  sleepTimer : Option Nat
  sleepResolve : Option Nat
  runs : JsMap Nat LoopRun
  settled : List Nat
  nextRun : Nat
  timers : JsMap Nat Int
  nextTimer : Nat
  /-- Calls of `stop` in flight with the promise they wait for. -/
  stops : JsMap Nat (Option Nat)
  /-- How many ticks have started. -/
  ticks : Nat
  now : Int

inductive PollLoopOp where
  | start (draw : Nat)
  | stop (call : Nat)
  | wake
  | setIntervalMs (intervalMs : Nat)
  | stopReturns (call : Nat)
  | tickEnds (run : Nat) (result : PollTickResult) (draw : Nat)
  | tickThrows (run : Nat)
  /-- The error hook returned, or threw. -/
  | reported (run : Nat)
  | resume (run : Nat) (draw : Nat)
  /-- The callback of `finally`. -/
  | settle (run : Nat)
  | advance (ms : Nat)
  | fire (timer : Nat)

inductive PollLoopAnswer where
  | none
  | stopped

namespace PollLoop

variable (config : PollLoopConfig)

def new (now : Int) : PollLoop where
  intervalMs := config.intervalMs
  stopping := false
  wakeRequested := false
  loopPromise := none
  sleepTimer := none
  sleepResolve := none
  runs := JsMap.empty
  settled := []
  nextRun := 0
  timers := JsMap.empty
  nextTimer := 0
  stops := JsMap.empty
  ticks := 0
  now := now

/-- The wait after an iteration that did not fail. -/
def idleDelayMs (l : PollLoop) (draw : Nat) : Nat :=
  match config.jitter with
  | none => l.intervalMs
  | some jittered => jittered l.intervalMs draw

def setRun (l : PollLoop) (r consecutiveFailures : Nat) (phase : LoopPhase) : PollLoop :=
  { l with runs := l.runs.set r { consecutiveFailures := consecutiveFailures, phase := phase } }

def loopHead (l : PollLoop) (r consecutiveFailures draw : Nat) : PollLoop :=
  if l.stopping then l.setRun r consecutiveFailures .over
  else
    { l.setRun r consecutiveFailures (.ticking (idleDelayMs config l draw)) with
      ticks := l.ticks + 1 }

def cancelSleep (l : PollLoop) : PollLoop :=
  { l with
    timers := match l.sleepTimer with
      | none => l.timers
      | some t => l.timers.delete t
    sleepTimer := none
    sleepResolve := none
    runs := match l.sleepResolve with
      | none => l.runs
      | some r => l.runs.mapValues fun r' run =>
        if r' = r ∧ run.phase = .sleeping then { run with phase := .woken } else run }

def sleep (l : PollLoop) (r consecutiveFailures ms : Nat) : PollLoop :=
  if l.wakeRequested then
    { l.setRun r consecutiveFailures .woken with wakeRequested := false }
  else
    { l.setRun r consecutiveFailures .sleeping with
      sleepResolve := some r
      sleepTimer := some l.nextTimer
      timers := l.timers.set l.nextTimer (l.now + ms)
      nextTimer := l.nextTimer + 1 }

/-- The end of an iteration. -/
def afterTick (l : PollLoop) (r consecutiveFailures delayMs : Nat) : PollLoop :=
  if l.stopping then l.setRun r consecutiveFailures .over
  else l.sleep r consecutiveFailures delayMs

/-- Starts a run, unless one is going. -/
def start (l : PollLoop) (draw : Nat) : PollLoop :=
  match l.loopPromise with
  | some _ => l
  | none =>
    let l := { l with stopping := false, wakeRequested := false }
    { loopHead config l l.nextRun 0 draw with
      loopPromise := some l.nextRun
      nextRun := l.nextRun + 1 }

def stop (l : PollLoop) (call : Nat) : PollLoop :=
  if l.stops.has call then l
  else
    let l := cancelSleep { l with stopping := true }
    { l with stops := l.stops.set call l.loopPromise }

def wake (l : PollLoop) : PollLoop :=
  match l.sleepResolve with
  | some _ => l.cancelSleep
  | none => { l with wakeRequested := true }

def tickEnds (l : PollLoop) (r : Nat) (result : PollTickResult) (draw : Nat) : PollLoop :=
  match l.runs.get r with
  | some ⟨_, .ticking delayMs⟩ =>
    match result with
    | .stop => l.setRun r 0 .over
    | .again => l.loopHead config r 0 draw
    | .idle => l.afterTick r 0 delayMs
  | _ => l

def tickThrows (l : PollLoop) (r : Nat) : PollLoop :=
  match l.runs.get r with
  | some ⟨failures, .ticking _⟩ =>
    l.setRun r (failures + 1) (.reporting (min config.maxBackoffMs (l.intervalMs * 2 ^ failures)))
  | _ => l

def reported (l : PollLoop) (r : Nat) : PollLoop :=
  match l.runs.get r with
  | some ⟨failures, .reporting delayMs⟩ => l.afterTick r failures delayMs
  | _ => l

def resume (l : PollLoop) (r draw : Nat) : PollLoop :=
  match l.runs.get r with
  | some ⟨failures, .woken⟩ => l.loopHead config r failures draw
  | _ => l

def settle (l : PollLoop) (r : Nat) : PollLoop :=
  match l.runs.get r with
  | some ⟨_, .over⟩ =>
    if r ∈ l.settled then l
    else
      { l with
        settled := r :: l.settled
        loopPromise := if l.loopPromise = some r then none else l.loopPromise }
  | _ => l

def stopReturns (l : PollLoop) (call : Nat) : PollLoop × PollLoopAnswer :=
  match l.stops.get call with
  | none => (l, .none)
  | some promise =>
    if promise.all fun r => r ∈ l.settled then
      ({ l with stops := l.stops.delete call }, .stopped)
    else (l, .none)

/-- The callback of a timer that is due. -/
def fire (l : PollLoop) (t : Nat) : PollLoop :=
  match l.timers.get t with
  | none => l
  | some due => if due ≤ l.now then cancelSleep { l with timers := l.timers.delete t } else l

end PollLoop

def pollLoop (config : PollLoopConfig) : Machine PollLoop PollLoopOp PollLoopAnswer where
  step l o := match o with
    | .start draw => (l.start config draw, .none)
    | .stop call => (l.stop call, .none)
    | .wake => (l.wake, .none)
    | .setIntervalMs intervalMs => ({ l with intervalMs := intervalMs }, .none)
    | .stopReturns call => l.stopReturns call
    | .tickEnds r result draw => (l.tickEnds config r result draw, .none)
    | .tickThrows r => (l.tickThrows config r, .none)
    | .reported r => (l.reported r, .none)
    | .resume r draw => (l.resume config r draw, .none)
    | .settle r => (l.settle r, .none)
    | .advance ms => ({ l with now := l.now + ms }, .none)
    | .fire t => (l.fire t, .none)

end Promin.Shared

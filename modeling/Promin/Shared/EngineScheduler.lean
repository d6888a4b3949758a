import Promin.ForStd.JsMap
import Promin.ForStd.Machine

/-!
# The engine's fiber scheduler

`createEngineScheduler`: tasks drain on microtasks, and after a bounded run of
drains the scheduler yields one macrotask, served by whichever of the raced
sources fires first.
-/

namespace Promin.Shared

structure EngineSchedulerConfig where
  microDrainBudget : Nat := 64
  /-- The raced macrotask sources: whether each gives back a function that cancels it. -/
  macrotaskHops : List Bool := [true, false]

/-- A yield that was requested. -/
structure EngineYield where
  served : Bool
  /-- The sources whose callback is still to come. -/
  callbacks : List Nat

inductive BatchCaller where
  | drain
  | flush

structure BatchFrame where
  caller : BatchCaller
  task : Nat
  /-- The tasks of the batch after it. -/
  rest : List Nat

/-- The variables of the closure, the callbacks in flight, the call stack, and a log. -/
structure EngineScheduler where
  queue : List Nat
  scheduled : Bool
  microDrains : Nat
  pendingYield : Option Nat
  /-- Drains among the microtasks. -/
  microtasks : Nat
  yields : JsMap Nat EngineYield
  nextYield : Nat
  frames : List BatchFrame
  nextTask : Nat
  /-- Tasks in the order they were called. -/
  called : List Nat
  /-- Tasks that have returned. -/
  returned : List Nat
  /-- Tasks that `shutdown` took from the queue. -/
  dropped : List Nat

inductive EngineSchedulerOp where
  | schedule
  | flush
  | shutdown
  | microtask
  | macrotask (yield source : Nat)
  | taskReturns

inductive EngineSchedulerAnswer where
  | none
  | flushed

namespace EngineScheduler

def new : EngineScheduler where
  queue := []
  scheduled := false
  microDrains := 0
  pendingYield := none
  microtasks := 0
  yields := JsMap.empty
  nextYield := 0
  frames := []
  nextTask := 0
  called := []
  returned := []
  dropped := []

def runBatch (caller : BatchCaller) (s : EngineScheduler) : Option EngineScheduler :=
  match s.queue with
  | [] => none
  | task :: rest =>
    some { s with
      queue := []
      frames := { caller := caller, task := task, rest := rest } :: s.frames
      called := s.called ++ [task] }

variable (config : EngineSchedulerConfig)

def cancelYield (s : EngineScheduler) : EngineScheduler :=
  match s.pendingYield with
  | none => s
  | some y => { s with
      pendingYield := none
      yields := s.yields.mapValues fun y' yielded =>
        if y' = y then
          { served := true
            callbacks := yielded.callbacks.filter fun source =>
              !config.macrotaskHops.getD source false }
        else yielded }

/-- A microtask, or a macrotask once the budget is spent. -/
def request (s : EngineScheduler) : EngineScheduler :=
  if s.microDrains < config.microDrainBudget then
    { s with microDrains := s.microDrains + 1, microtasks := s.microtasks + 1 }
  else
    { s with
      yields := s.yields.set s.nextYield
        { served := false, callbacks := List.range config.macrotaskHops.length }
      pendingYield := some s.nextYield
      nextYield := s.nextYield + 1 }

def afterDrain (s : EngineScheduler) : EngineScheduler :=
  if 0 < s.queue.length && !s.scheduled then request config { s with scheduled := true } else s

def drain (s : EngineScheduler) : EngineScheduler :=
  let s := { s with scheduled := false }
  match s.runBatch .drain with
  | none => s.afterDrain config
  | some s' => s'

/-- The loop of `flush`, up to its next batch or its return. -/
def flushLoop (s : EngineScheduler) : EngineScheduler × EngineSchedulerAnswer :=
  match s.runBatch .flush with
  | none => ({ s with scheduled := false }, .flushed)
  | some s' => (s', .none)

/-- Queues a task, and asks for a wake-up unless one is due. -/
def schedule (s : EngineScheduler) : EngineScheduler :=
  let s := { s with queue := s.queue ++ [s.nextTask], nextTask := s.nextTask + 1 }
  if s.scheduled then s else request config { s with scheduled := true }

def flush (s : EngineScheduler) : EngineScheduler × EngineSchedulerAnswer :=
  (s.cancelYield config).flushLoop

def shutdown (s : EngineScheduler) : EngineScheduler :=
  let s := s.cancelYield config
  { s with queue := [], scheduled := false, dropped := s.dropped ++ s.queue }

def microtask (s : EngineScheduler) : EngineScheduler :=
  if 0 < s.microtasks then drain config { s with microtasks := s.microtasks - 1 } else s

/-- `serve`, as the callback of a source. -/
def macrotask (s : EngineScheduler) (y source : Nat) : EngineScheduler :=
  match s.yields.get y with
  | none => s
  | some yielded =>
    if source ∈ yielded.callbacks then
      let fired := { yielded with callbacks := yielded.callbacks.erase source }
      if yielded.served then { s with yields := s.yields.set y fired }
      else
        let s := { s with yields := s.yields.set y { fired with served := true } }
        drain config { s.cancelYield config with microDrains := 0 }
    else s

def taskReturns (s : EngineScheduler) : EngineScheduler × EngineSchedulerAnswer :=
  match s.frames with
  | [] => (s, .none)
  | frame :: frames =>
    let s := { s with returned := s.returned ++ [frame.task] }
    match frame.rest with
    | task :: rest =>
      ({ s with
          frames := { frame with task := task, rest := rest } :: frames
          called := s.called ++ [task] }, .none)
    | [] =>
      match frame.caller with
      | .drain => (afterDrain config { s with frames := frames }, .none)
      | .flush => flushLoop { s with frames := frames }

end EngineScheduler

def engineScheduler (config : EngineSchedulerConfig) :
    Machine EngineScheduler EngineSchedulerOp EngineSchedulerAnswer where
  step s o := match o with
    | .schedule => (s.schedule config, .none)
    | .flush => s.flush config
    | .shutdown => (s.shutdown config, .none)
    | .microtask => (s.microtask config, .none)
    | .macrotask y source => (s.macrotask config y source, .none)
    | .taskReturns => s.taskReturns config

end Promin.Shared

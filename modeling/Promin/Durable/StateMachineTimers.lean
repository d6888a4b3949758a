import Promin.Durable.StateMachine

/-!
# Timers of durable state machines

The in-process timeouts of `StateMachineInstance` over the calls of
`StateMachine`.
-/

namespace Promin.Durable

/-- A pending timeout. -/
structure MachineTimer where
  stateName : String
  dueAtMs : Int
  /-- History: the revision of the machine at the visit the due time was computed for. -/
  revision : Nat

/-- What a call knows of timeouts, beside its phase. -/
structure CallNotes where
  /-- A send has read the pending timer. -/
  noted : Bool := false
  /-- The timer whose due time is `pendingTimeoutDueAt`. -/
  pending : Option MachineTimer := none
  /-- `fromState` of a send. -/
  fromState : Option String := none
  /-- The `finally` of the call ran. -/
  settled : Bool := false
  /-- A `start` has stored its machine: the instance and the machine whose timeout it is yet
      to arm. -/
  arming : Option (Nat × String) := none
  /-- History: the revision of the machine at the visit a firing is due for. -/
  revision : Nat := 0
  /-- History: the lock of this call refused a firing. -/
  refused : Bool := false

/-- Instances on one storage with their timers. -/
structure TimedMachines where
  machines : StateMachineSystem
  /-- The timers, by instance and machine id. -/
  timers : Nat → JsMap String MachineTimer
  notes : Nat → CallNotes
  /-- History: the timeout of the machine's state was evaluated since the state was entered. -/
  evaluated : String → Bool

def TimedMachines.new (now : Int) : TimedMachines where
  machines := .new now
  timers _ := JsMap.empty
  notes _ := {}
  evaluated _ := false

inductive TimedOp where
  | advance (ms : Nat)
  /-- `start` of instance `i`, up to its load. -/
  | start (c i : Nat) (p : MachineStartParams)
  /-- `start` stores its machine. -/
  | create (c : Nat)
  /-- `start` arms the timeout of the initial state. -/
  | armInitial (c : Nat)
  /-- `send` of instance `i`, up to its lock. -/
  | send (c i : Nat) (p : SendParams) (uuid : String)
  | noteTimeout (c : Nat)
  /-- The callback of a timer of instance `i`. -/
  | fire (c i : Nat) (id : String)
  | checkTimeouts (c i : Nat) (id : String)
  /-- A firing asks for the lock. -/
  | fireDue (c : Nat) (uuid : String)
  | load (c : Nat)
  | decide (c : Nat) (guard : Except String Bool) (action : ActionResult)
  | commit (c : Nat) (rewrite : MiddlewareRewrite) (uuid : String)
  | heartbeat (c : Nat)
  /-- The `finally` of a send or a firing. -/
  | settle (c : Nat)
  | cancelAllTimeouts (i : Nat)

namespace TimedMachines

open StateMachineSystem Function

variable (defs : Nat → StateMachineDefinition) (autoScheduleTimeouts : Nat → Bool)
  (s : TimedMachines)

def now : Int := s.machines.storage.now

/-- The number names no call. -/
def free (c : Nat) : Bool :=
  (s.machines.calls c).isNone && (s.notes c).arming.isNone

def setNotes (c : Nat) (notes : CallNotes) : TimedMachines :=
  { s with notes := update s.notes c notes }

def cancelTimeout (i : Nat) (id : String) : TimedMachines :=
  { s with timers := update s.timers i ((s.timers i).delete id) }

def scheduleTimeoutIfAny (i : Nat) (id stateName : String) (delayMs : Option Int) (revision : Nat) :
    TimedMachines :=
  if autoScheduleTimeouts i then
    match (defs i).timeoutOf stateName with
    | none => s
    | some cfg =>
      let s := s.cancelTimeout i id
      { s with
        timers := update s.timers i ((s.timers i).set id
          { stateName := stateName, dueAtMs := s.now + delayMs.getD cfg.ms,
            revision := revision }) }
  else s

def committedTo : MachineCall → Option (String × Nat)
  | .decided _ _ m tx true => some (tx.to, m.revision + 1)
  | .decided _ _ _ _ false => none
  | .starting _ | .due _ _ | .locked _ _ | .loaded _ _ _ | .ending _ _ => none

def settleCommitted (i : Nat) (id stateName : String) (revision : Nat) : TimedMachines :=
  scheduleTimeoutIfAny defs autoScheduleTimeouts (s.cancelTimeout i id) i id stateName none revision

/-- A send that did not commit keeps the old timeout, and arms it again if it is gone. -/
def settleUncommitted (i : Nat) (id : String) (fromState : Option String)
    (pending : Option MachineTimer) : TimedMachines :=
  match fromState, pending with
  | some stateName, some timer =>
    if (s.timers i).has id then s
    else
      scheduleTimeoutIfAny defs autoScheduleTimeouts s i id stateName
        (some (max 0 (timer.dueAtMs - s.now))) timer.revision
  | _, _ => s

/-- `settleTimeoutAfterSend`, and what a firing does to the timers when it ends. -/
def settleTimeout (c i : Nat) (request : MachineRequest) (call : MachineCall) : TimedMachines :=
  match committedTo call with
  | some (stateName, revision) =>
    settleCommitted defs autoScheduleTimeouts s i request.id stateName revision
  | none =>
    match request with
    | .send p =>
      settleUncommitted defs autoScheduleTimeouts s i p.id (s.notes c).fromState (s.notes c).pending
    | .timeout _ _ => s

/-- The request of a call whose `try` is over. -/
def endedRequest : MachineCall → Option MachineRequest
  | .decided request _ _ _ _ => some request
  | .ending request _ => some request
  | .starting _ | .due _ _ | .locked _ _ | .loaded _ _ _ => none

def settle (c : Nat) : TimedMachines :=
  match s.machines.calls c with
  | none => s
  | some (i, call) =>
    match endedRequest call with
    | none => s
    | some request =>
      if (s.notes c).settled then s
      else
        let s := settleTimeout defs autoScheduleTimeouts s c i request call
        { s with machines := (s.machines.releaseLock c).1 }.setNotes c
          { s.notes c with settled := true }

def create (c : Nat) : TimedMachines :=
  match s.machines.calls c with
  | some (i, .starting p) =>
    { s with
      machines := (s.machines.create defs c).1
      evaluated := update s.evaluated p.id false }.setNotes c
      { s.notes c with arming := some (i, p.id) }
  | _ => s

def armInitial (c : Nat) : TimedMachines :=
  match (s.notes c).arming with
  | none => s
  | some (i, id) =>
    scheduleTimeoutIfAny defs autoScheduleTimeouts
      (s.setNotes c { s.notes c with arming := none }) i id (defs i).initialState none 0

def noteTimeout (c : Nat) : TimedMachines :=
  match s.machines.calls c with
  | some (i, .locked (.send p) _) =>
    if (s.notes c).noted then s
    else s.setNotes c { s.notes c with noted := true, pending := (s.timers i).get p.id }
  | _ => s

/-- The callback of a timer: it takes itself out. -/
def fire (c i : Nat) (id : String) : TimedMachines :=
  match (s.timers i).get id with
  | none => s
  | some timer =>
    if s.free c && decide (timer.dueAtMs ≤ s.now) then
      let s := s.cancelTimeout i id
      { s with machines := s.machines.toPhase c i (.due id timer.stateName) }.setNotes c
        { revision := timer.revision }
    else s

def holds (c : Nat) (id : String) : Bool :=
  match s.machines.calls c with
  | none => false
  | some (_, call) => ((lockOf call).map fun held => held.1 == id).getD false &&
      !(s.notes c).settled

def markRefused (id : String) : TimedMachines :=
  { s with notes := fun c =>
    if s.holds c id then { s.notes c with refused := true } else s.notes c }

def fireDue (c : Nat) (uuid : String) : TimedMachines :=
  match s.machines.calls c with
  | some (_, .due id _) =>
    let machines := (s.machines.fireDue defs c uuid).1
    if (machines.calls c).isSome then { s with machines := machines }
    else { s.markRefused id with machines := machines }
  | _ => s

def checkedState (s : StateMachineSystem) (d : StateMachineDefinition) (i : Nat) (p : SendParams) :
    Option String :=
  match s.storage.load p.id with
  | none => none
  | some m =>
    match d.checkMachine p.id m, (s.withinRate d i p.id).2 with
    | .ok (), .ok () => some m.current
    | _, _ => none

def load (c : Nat) : TimedMachines × StateMachineAnswer :=
  let r := s.machines.load defs c
  match s.machines.calls c with
  | some (_, .locked (.timeout _ _) _) => ({ s with machines := r.1 }, r.2)
  | some (i, .locked (.send p) _) =>
    if (s.notes c).noted then
      ({ s with machines := r.1 }.setNotes c
        { s.notes c with fromState := checkedState s.machines (defs i) i p }, r.2)
    else (s, .none)
  | _ => (s, .none)

def decide (c : Nat) (guard : Except String Bool) (action : ActionResult) : TimedMachines :=
  { s with
    machines := (s.machines.decide defs c guard action).1
    evaluated := match s.machines.calls c with
      | some (_, .loaded (.timeout id _) _ _) => update s.evaluated id true
      | _ => s.evaluated }

def commit (c : Nat) (rewrite : MiddlewareRewrite) (uuid : String) :
    TimedMachines × StateMachineAnswer :=
  let r := s.machines.commit defs c rewrite uuid
  ({ s with
      machines := r.1
      evaluated := match r.2 with
        | .committed id => update s.evaluated id false
        | _ => s.evaluated }, r.2)

end TimedMachines

/-- The transition function of a set of instances on one storage, with their timers. -/
def timedMachines (defs : Nat → StateMachineDefinition) (autoScheduleTimeouts : Nat → Bool) :
    Machine TimedMachines TimedOp StateMachineAnswer where
  step s o := match o with
    | .advance ms =>
      ({ s with machines := (stateMachineSystem defs).next s.machines (.advance ms) }, .none)
    | .start c i p =>
      if s.free c then
        let r := s.machines.start c i p
        ({ s with machines := r.1 }.setNotes c {}, r.2)
      else (s, .none)
    | .create c => (s.create defs c, (s.machines.create defs c).2)
    | .armInitial c => (s.armInitial defs autoScheduleTimeouts c, .none)
    | .send c i p uuid =>
      if s.free c then
        let r := s.machines.acquireLock c i (.send p) uuid
        ({ s with machines := r.1 }.setNotes c {}, r.2)
      else (s, .none)
    | .noteTimeout c => (s.noteTimeout c, .none)
    | .fire c i id => (s.fire c i id, .none)
    | .checkTimeouts c i id =>
      if s.free c then
        let r := s.machines.checkTimeouts defs c i id
        let revision := ((s.machines.storage.load id).map (·.revision)).getD 0
        ({ s with machines := r.1 }.setNotes c { revision := revision }, r.2)
      else (s, .none)
    | .fireDue c uuid => (s.fireDue defs c uuid, (s.machines.fireDue defs c uuid).2)
    | .load c => s.load defs c
    | .decide c guard action =>
      (s.decide defs c guard action, (s.machines.decide defs c guard action).2)
    | .commit c rewrite uuid => s.commit defs c rewrite uuid
    | .heartbeat c =>
      if (s.notes c).settled then (s, .none)
      else ({ s with machines := (s.machines.heartbeat c).1 }, .none)
    | .settle c => (s.settle defs autoScheduleTimeouts c, .none)
    | .cancelAllTimeouts i => ({ s with timers := Function.update s.timers i JsMap.empty }, .none)

end Promin.Durable

import Promin.ForStd.JsMap
import Promin.ForStd.Machine
import Promin.Shared.JsValue

/-!
# Durable state machines

`StateMachineInstance` over `InMemoryStateMachineStorage`.  A machine is stored with its
current state, context and revision, beside the list of its transition events.  Sends and
timeout firings take the machine's lock, load it, decide where it goes, and save the
transition by a compare-and-set on state and revision; a lock expires on its own, so two
of them may run at once.

An operation is what happens between two awaits of one call in flight: one storage call
and the code around it, or what a guard, an action or a middleware answered.  A list of
operations is an interleaving of any number of calls by any number of instances.  A timer
of any state that has a timeout may fire at any time.  What user code decides (the guard's
verdict, the action's result after its retries, what middleware leaves in the transition
when it calls `next`) and the random ids are arguments.
-/

namespace Promin.Durable

structure MachineState where
  id : String
  name : String
  type : Option String
  «namespace» : Option String
  current : String
  context : JsValue
  version : Option String
  metadata : Option JsValue
  /-- Number of committed transitions. -/
  revision : Nat
  createdAt : Int
  updatedAt : Int

structure TransitionEvent where
  id : String
  event : String
  «from» : String
  «to» : String
  context : JsValue
  eventData : JsValue
  metadata : JsValue
  createdAt : Int

structure StateMachineLock where
  token : String
  expiresAt : Int

structure MachineCreateParams where
  id : String
  name : String
  type : Option String
  «namespace» : Option String
  initial : String
  context : JsValue
  version : Option String
  metadata : Option JsValue

structure MachineTransitionParams where
  id : String
  «from» : String
  «to» : String
  expectedRevision : Nat
  event : String
  context : JsValue
  eventData : JsValue
  metadata : JsValue

structure InMemoryStateMachineStorage where
  machines : JsMap String MachineState
  events : JsMap String (List TransitionEvent)
  locks : JsMap String StateMachineLock
  now : Int

namespace InMemoryStateMachineStorage

def new (now : Int) : InMemoryStateMachineStorage where
  machines := JsMap.empty
  events := JsMap.empty
  locks := JsMap.empty
  now := now

/-- The row `create` stores. -/
def newMachine (s : InMemoryStateMachineStorage) (p : MachineCreateParams) : MachineState where
  id := p.id
  name := p.name
  type := p.type
  «namespace» := p.namespace
  current := p.initial
  context := p.context
  version := p.version
  metadata := p.metadata
  revision := 0
  createdAt := s.now
  updatedAt := s.now

def create (s : InMemoryStateMachineStorage) (p : MachineCreateParams) :
    InMemoryStateMachineStorage :=
  { s with
    machines := s.machines.set p.id (s.newMachine p)
    events := s.events.set p.id [] }

def load (s : InMemoryStateMachineStorage) (id : String) : Option MachineState := s.machines.get id

def eventsOf (s : InMemoryStateMachineStorage) (id : String) : List TransitionEvent :=
  (s.events.get id).getD []

def notFound (id : String) : String := "Machine " ++ id ++ " not found"

def movedError (m : MachineState) (p : MachineTransitionParams) : String :=
  "Machine " ++ p.id ++ " is in state \"" ++ m.current ++ "\" at revision " ++
    toString m.revision ++ ", not \"" ++ p.from ++ "\" at revision " ++
    toString p.expectedRevision

/-- Compare-and-set transition: applies only while the machine is in `from` at
    `expectedRevision`. -/
def transition (s : InMemoryStateMachineStorage) (p : MachineTransitionParams) (uuid : String) :
    InMemoryStateMachineStorage × Except String Unit :=
  match s.machines.get p.id with
  | none => (s, .error (notFound p.id))
  | some m =>
    if m.current ≠ p.from ∨ m.revision ≠ p.expectedRevision then (s, .error (movedError m p))
    else
      let event : TransitionEvent :=
        { id := uuid
          event := p.event
          «from» := p.from
          «to» := p.to
          context := p.context
          eventData := p.eventData
          metadata := p.metadata
          createdAt := s.now }
      ({ s with
          machines := s.machines.set p.id
            { m with
              current := p.to
              context := p.context
              revision := m.revision + 1
              updatedAt := s.now }
          events := s.events.set p.id (s.eventsOf p.id ++ [event]) }, .ok ())

def tryLock (s : InMemoryStateMachineStorage) (id : String) (durationMs : Int) (uuid : String) :
    InMemoryStateMachineStorage × Option String :=
  let locked := { s with
    locks := s.locks.set id { token := uuid, expiresAt := s.now + durationMs } }
  match s.locks.get id with
  | some lock => if lock.expiresAt > s.now then (s, none) else (locked, some uuid)
  | none => (locked, some uuid)

def releaseLock (s : InMemoryStateMachineStorage) (id token : String) :
    InMemoryStateMachineStorage :=
  match s.locks.get id with
  | some lock => if lock.token = token then { s with locks := s.locks.delete id } else s
  | none => s

/-- Heartbeat: move the lock's expiry, if it still carries `token` and has not expired. -/
def extendLock (s : InMemoryStateMachineStorage) (id token : String) (durationMs : Int) :
    InMemoryStateMachineStorage × Bool :=
  match s.locks.get id with
  | none => (s, false)
  | some lock =>
    if lock.token ≠ token ∨ lock.expiresAt ≤ s.now then (s, false)
    else
      ({ s with locks := s.locks.set id { lock with expiresAt := s.now + durationMs } }, true)

end InMemoryStateMachineStorage

/-! ## Definitions -/

structure TimeoutConfig where
  ms : Int
  target : String
  event : Option String := none
  hasGuard : Bool := false

structure StateConfig where
  timeout : Option TimeoutConfig := none

structure TransitionConfig where
  event : String
  «from» : List String
  /-- Absent: the action decides. -/
  «to» : Option String := none
  hasGuard : Bool := false
  hasAction : Bool := false
  onError : Option String := none

structure MachineLimits where
  maxTransitions : Option Nat := none
  maxTransitionsPerSecond : Option Nat := none

/-- What the builder hands an instance. -/
structure StateMachineDefinition where
  name : String
  states : JsMap String StateConfig
  transitions : List TransitionConfig
  initialState : String
  version : Option String := none
  limits : MachineLimits := {}
  hasMiddleware : Bool := false
  type : Option String := none
  «namespace» : Option String := none

def TIMEOUT_EVENT : String := "__timeout__"

def lockDurationMs : Int := 30000

structure MachineStartParams where
  id : String
  context : JsValue
  metadata : Option JsValue := none

structure SendParams where
  id : String
  event : String
  data : JsValue := .undefined
  metadata : JsValue := .undefined

/-- What an action did, its retries included. -/
inductive ActionResult where
  | returned (value : JsValue)
  | transitionTo (target : String) (context : JsValue)
  | threw (message : String)

def spreadMembers : JsValue → List (String × JsValue)
  | .obj members => members
  | .arr items => items.zipIdx.map fun (v, i) => (toString i, v)
  | .str s => s.toList.zipIdx.map fun (c, i) => (toString i, .str (String.singleton c))
  | .undefined | .null | .bool _ | .num _ | .date _ => []

def withError (context : JsValue) (message : String) : JsValue :=
  .obj (JsMap.upsert "error" (.str message) (spreadMembers context))

namespace StateMachineDefinition

def findTransition (d : StateMachineDefinition) (event current : String) :
    Option TransitionConfig :=
  d.transitions.find? fun t => t.event == event && t.from.contains current

def versionMismatch (id stored code current : String) : String :=
  "Machine \"" ++ id ++ "\" version mismatch: instance has \"" ++ stored ++
    "\" but code defines \"" ++ code ++ "\" (current state: \"" ++ current ++ "\")"

/-- The checks of `send` on the loaded machine, before its rate limit. -/
def checkMachine (d : StateMachineDefinition) (id : String) (m : MachineState) :
    Except String Unit :=
  let limit := d.limits.maxTransitions.getD 0
  match d.version, m.version with
  | some code, some stored =>
    if stored ≠ code then .error (versionMismatch id stored code m.current)
    else if 0 < limit ∧ limit ≤ m.revision then
      .error ("Machine " ++ id ++ " exceeded max transitions limit (" ++ toString limit ++ ")")
    else .ok ()
  | _, _ =>
    if 0 < limit ∧ limit ≤ m.revision then
      .error ("Machine " ++ id ++ " exceeded max transitions limit (" ++ toString limit ++ ")")
    else .ok ()

def computeTarget (t : TransitionConfig) (event : String) (m : MachineState)
    (action : ActionResult) : Except String (String × JsValue) :=
  if t.hasAction then
    match action with
    | .transitionTo target context => .ok (target, context)
    | .threw message => .error message
    | .returned value =>
      if truthy t.to then .ok (t.to.getD "", value)
      else .error ("Transition for \"" ++ event ++
        "\" has no target state and action didn't return TransitionTo")
  else if truthy t.to then .ok (t.to.getD "", m.context)
  else .error ("Transition for \"" ++ event ++ "\" has no action and no target state")

/-- Target state and context of a transition: a failure goes to the error state, if the
    transition has one, and the target must be registered. -/
def decideTarget (d : StateMachineDefinition) (t : TransitionConfig) (event : String)
    (m : MachineState) (action : ActionResult) : Except String (String × JsValue) :=
  let decided : Except String (String × JsValue) :=
    match computeTarget t event m action with
    | .ok target => .ok target
    | .error message =>
      if truthy t.onError && d.states.has (t.onError.getD "") then
        .ok (t.onError.getD "", withError m.context message)
      else .error message
  match decided with
  | .error message => .error message
  | .ok (target, context) =>
    if d.states.has target then .ok (target, context)
    else .error ("Target state \"" ++ target ++ "\" is not registered")

def timeoutOf (d : StateMachineDefinition) (state : String) : Option TimeoutConfig :=
  (d.states.get state).bind (·.timeout)

end StateMachineDefinition

/-! ## Calls in flight -/

/-- What a call that took the lock wants. -/
inductive MachineRequest where
  | send (p : SendParams)
  | timeout (id fromState : String)

def MachineRequest.id : MachineRequest → String
  | .send p => p.id
  | .timeout id _ => id

structure HeldMachineLock where
  token : String
  /-- A heartbeat found the lock expired or taken over. -/
  lost : Bool := false

/-- The transition about to happen, as middleware sees it. -/
structure TransitionContext where
  machineId : String
  machineName : String
  event : String
  «from» : String
  «to» : String
  context : JsValue
  eventData : JsValue
  metadata : JsValue
  deriving DecidableEq

/-- What middleware leaves in the transition when it calls `next`. -/
structure MiddlewareRewrite where
  «to» : String
  context : JsValue
  metadata : JsValue

/-- A call in flight, by the instance that makes it. -/
inductive MachineCall where
  /-- `start` found no machine. -/
  | starting (p : MachineStartParams)
  /-- `checkTimeouts` found the state's timeout due. -/
  | due (id fromState : String)
  /-- The lock is taken; the machine is to be loaded. -/
  | locked (request : MachineRequest) (lock : HeldMachineLock)
  /-- The machine is loaded; the guard and the action are to answer. -/
  | loaded (request : MachineRequest) (lock : HeldMachineLock) (machine : MachineState)
  /-- The transition is decided; `next` may run. -/
  | decided (request : MachineRequest) (lock : HeldMachineLock) (machine : MachineState)
      (tx : TransitionContext) (committed : Bool)
  /-- The call failed or does not fire; its lock is to be released. -/
  | ending (request : MachineRequest) (lock : HeldMachineLock)

/-- One storage, the instances on it, and the calls in flight, each by number. -/
structure StateMachineSystem where
  storage : InMemoryStateMachineStorage
  /-- Send timestamps inside the last second, by instance and machine id. -/
  recentSends : Nat → JsMap String (List Int)
  calls : Nat → Option (Nat × MachineCall)

def StateMachineSystem.new (now : Int) : StateMachineSystem where
  storage := .new now
  recentSends _ := JsMap.empty
  calls _ := none

inductive StateMachineOp where
  | advance (ms : Nat)
  /-- `start` of instance `i`, up to its load. -/
  | start (c i : Nat) (p : MachineStartParams)
  /-- The rest of `start`. -/
  | create (c : Nat)
  | send (c i : Nat) (p : SendParams) (uuid : String)
  | fireTimeout (c i : Nat) (id fromState : String) (uuid : String)
  | checkTimeouts (c i : Nat) (id : String)
  /-- `checkTimeouts` fires the timeout it found due. -/
  | fireDue (c : Nat) (uuid : String)
  | load (c : Nat)
  | decide (c : Nat) (guard : Except String Bool) (action : ActionResult)
  /-- `next` runs: the transition is saved. -/
  | commit (c : Nat) (rewrite : MiddlewareRewrite) (uuid : String)
  | heartbeat (c : Nat)
  | releaseLock (c : Nat)

inductive StateMachineAnswer where
  | none
  | started (id initial : String) (context : JsValue)
  | committed (id : String)
  /-- The call throws. -/
  | threw (message : String)
  /-- A timeout did not fire. -/
  | notFired

namespace StateMachineSystem

variable (defs : Nat → StateMachineDefinition) (s : StateMachineSystem)

def toPhase (c i : Nat) (call : MachineCall) : StateMachineSystem :=
  { s with calls := Function.update s.calls c (some (i, call)) }

def done (c : Nat) : StateMachineSystem :=
  { s with calls := Function.update s.calls c none }

def start (c i : Nat) (p : MachineStartParams) : StateMachineSystem × StateMachineAnswer :=
  match s.storage.load p.id with
  | some _ => (s.done c, .threw ("Machine " ++ p.id ++ " already exists"))
  | none => (s.toPhase c i (.starting p), .none)

def createParams (d : StateMachineDefinition) (p : MachineStartParams) : MachineCreateParams where
  id := p.id
  name := d.name
  type := d.type
  «namespace» := d.namespace
  initial := d.initialState
  context := p.context
  version := d.version
  metadata := p.metadata

def create (c : Nat) : StateMachineSystem × StateMachineAnswer :=
  match s.calls c with
  | some (i, .starting p) =>
    ({ s.done c with storage := s.storage.create (createParams (defs i) p) },
      .started p.id (defs i).initialState p.context)
  | _ => (s, .none)

def acquireLock (c i : Nat) (request : MachineRequest) (uuid : String) :
    StateMachineSystem × StateMachineAnswer :=
  match s.storage.tryLock request.id lockDurationMs uuid with
  | (storage, some token) =>
    ({ s with storage := storage }.toPhase c i (.locked request { token := token }), .none)
  | (storage, none) =>
    ({ s with storage := storage }.done c,
      match request with
      | .send p => .threw ("Machine " ++ p.id ++ " is locked")
      | .timeout _ _ => .notFired)

def fireTimeout (c i : Nat) (id fromState uuid : String) :
    StateMachineSystem × StateMachineAnswer :=
  match (defs i).timeoutOf fromState with
  | none => (s.done c, .notFired)
  | some _ => s.acquireLock c i (.timeout id fromState) uuid

def checkTimeouts (c i : Nat) (id : String) : StateMachineSystem × StateMachineAnswer :=
  match s.storage.load id with
  | none => (s.done c, .notFired)
  | some m =>
    match (defs i).timeoutOf m.current with
    | none => (s.done c, .notFired)
    | some cfg =>
      if s.storage.now < m.updatedAt + cfg.ms then (s.done c, .notFired)
      else (s.toPhase c i (.due id m.current), .none)

def fireDue (c : Nat) (uuid : String) : StateMachineSystem × StateMachineAnswer :=
  match s.calls c with
  | some (i, .due id fromState) => s.fireTimeout defs c i id fromState uuid
  | _ => (s, .none)

/-- Count one send against the machine's per-second window; whether it is within the
    limit. The sweep of idle windows drops only timestamps the filter drops too. -/
def checkRateLimit (i : Nat) (id : String) (maxPerSecond : Nat) : StateMachineSystem × Bool :=
  let recent := (((s.recentSends i).get id).getD []).filter fun t => s.storage.now - 1000 < t
  if maxPerSecond ≤ recent.length then
    ({ s with recentSends := Function.update s.recentSends i ((s.recentSends i).set id recent) },
      false)
  else
    ({ s with
        recentSends := Function.update s.recentSends i
          ((s.recentSends i).set id (recent ++ [s.storage.now])) }, true)

def withinRate (d : StateMachineDefinition) (i : Nat) (id : String) :
    StateMachineSystem × Except String Unit :=
  match d.limits.maxTransitionsPerSecond with
  | none | some 0 => (s, .ok ())
  | some limit =>
    match s.checkRateLimit i id limit with
    | (s', true) => (s', .ok ())
    | (s', false) =>
      (s', .error ("Machine " ++ id ++ " exceeded rate limit (" ++ toString limit ++ "/sec)"))

def load (c : Nat) : StateMachineSystem × StateMachineAnswer :=
  match s.calls c with
  | some (i, .locked request lock) =>
    match s.storage.load request.id with
    | none =>
      (s.toPhase c i (.ending request lock),
        match request with
        | .send p => .threw (InMemoryStateMachineStorage.notFound p.id)
        | .timeout _ _ => .notFired)
    | some m =>
      match request with
      | .timeout _ fromState =>
        if m.current ≠ fromState then (s.toPhase c i (.ending request lock), .notFired)
        else (s.toPhase c i (.loaded request lock m), .none)
      | .send p =>
        match (defs i).checkMachine p.id m with
        | .error message => (s.toPhase c i (.ending request lock), .threw message)
        | .ok () =>
          match s.withinRate (defs i) i p.id with
          | (s', .error message) => (s'.toPhase c i (.ending request lock), .threw message)
          | (s', .ok ()) =>
            match (defs i).findTransition p.event m.current with
            | none =>
              (s'.toPhase c i (.ending request lock),
                .threw ("No transition for event \"" ++ p.event ++ "\" from state \"" ++
                  m.current ++ "\""))
            | some _ => (s'.toPhase c i (.loaded request lock m), .none)
  | _ => (s, .none)

def guardPasses (hasGuard : Bool) (guard : Except String Bool) (rejected : StateMachineAnswer) :
    Except StateMachineAnswer Unit :=
  if hasGuard then
    match guard with
    | .error message => .error (.threw message)
    | .ok true => .ok ()
    | .ok false => .error rejected
  else .ok ()

def decideSend (d : StateMachineDefinition) (p : SendParams) (m : MachineState)
    (guard : Except String Bool) (action : ActionResult) :
    Except StateMachineAnswer TransitionContext :=
  match d.findTransition p.event m.current with
  | none => .error .none
  | some t =>
    match guardPasses t.hasGuard guard (.threw ("Guard rejected event \"" ++ p.event ++ "\"")) with
    | .error answer => .error answer
    | .ok () =>
      match d.decideTarget t p.event m action with
      | .error message => .error (.threw message)
      | .ok (target, context) => .ok {
          machineId := p.id
          machineName := d.name
          event := p.event
          «from» := m.current
          «to» := target
          context := context
          eventData := p.data
          metadata := p.metadata }

def decideTimeout (d : StateMachineDefinition) (id fromState : String) (m : MachineState)
    (guard : Except String Bool) : Except StateMachineAnswer TransitionContext :=
  match d.timeoutOf fromState with
  | none => .error .none
  | some cfg =>
    match guardPasses cfg.hasGuard guard .notFired with
    | .error answer => .error answer
    | .ok () =>
      if d.states.has cfg.target then .ok {
        machineId := id
        machineName := d.name
        event := cfg.event.getD TIMEOUT_EVENT
        «from» := fromState
        «to» := cfg.target
        context := m.context
        eventData := .undefined
        metadata := .undefined }
      else .error (.threw ("Timeout target state \"" ++ cfg.target ++ "\" is not registered"))

def decideRequest (d : StateMachineDefinition) (request : MachineRequest) (m : MachineState)
    (guard : Except String Bool) (action : ActionResult) :
    Except StateMachineAnswer TransitionContext :=
  match request with
  | .send p => decideSend d p m guard action
  | .timeout id fromState => decideTimeout d id fromState m guard

def decide (c : Nat) (guard : Except String Bool) (action : ActionResult) :
    StateMachineSystem × StateMachineAnswer :=
  match s.calls c with
  | some (i, .loaded request lock m) =>
    match decideRequest (defs i) request m guard action with
    | .error answer => (s.toPhase c i (.ending request lock), answer)
    | .ok tx => (s.toPhase c i (.decided request lock m tx false), .none)
  | _ => (s, .none)

def rewritten (d : StateMachineDefinition) (request : MachineRequest) (tx : TransitionContext)
    (rewrite : MiddlewareRewrite) : TransitionContext :=
  match request with
  | .send _ =>
    if d.hasMiddleware then
      { tx with «to» := rewrite.to, context := rewrite.context, metadata := rewrite.metadata }
    else tx
  | .timeout _ _ => tx

/-- What a decided call saves. -/
def transitionParams (m : MachineState) (tx : TransitionContext) : MachineTransitionParams where
  id := tx.machineId
  «from» := tx.from
  «to» := tx.to
  expectedRevision := m.revision
  event := tx.event
  context := tx.context
  eventData := tx.eventData
  metadata := tx.metadata

/-- `executeTransition`, up to its save. A call that committed only runs `onEnter` again. -/
def commit (c : Nat) (rewrite : MiddlewareRewrite) (uuid : String) :
    StateMachineSystem × StateMachineAnswer :=
  match s.calls c with
  | some (i, .decided request lock m tx false) =>
    let tx := rewritten (defs i) request tx rewrite
    if lock.lost then
      (s, .threw ("Machine " ++ request.id ++ " lock expired before the transition was saved"))
    else
      match s.storage.transition (transitionParams m tx) uuid with
      | (_, .error message) => (s, .threw message)
      | (storage, .ok ()) =>
        ({ s with storage := storage }.toPhase c i (.decided request lock m tx true),
          .committed request.id)
  | _ => (s, .none)

def losing : MachineCall → MachineCall
  | .locked request lock => .locked request { lock with lost := true }
  | .loaded request lock m => .loaded request { lock with lost := true } m
  | .decided request lock m tx committed =>
    .decided request { lock with lost := true } m tx committed
  | .ending request lock => .ending request { lock with lost := true }
  | .starting p => .starting p
  | .due id fromState => .due id fromState

def lockOf : MachineCall → Option (String × HeldMachineLock)
  | .locked request lock => some (request.id, lock)
  | .loaded request lock _ => some (request.id, lock)
  | .decided request lock _ _ _ => some (request.id, lock)
  | .ending request lock => some (request.id, lock)
  | .starting _ => none
  | .due _ _ => none

def heartbeat (c : Nat) : StateMachineSystem × StateMachineAnswer :=
  match s.calls c with
  | none => (s, .none)
  | some (i, call) =>
    match lockOf call with
    | none => (s, .none)
    | some (id, lock) =>
      match s.storage.extendLock id lock.token lockDurationMs with
      | (storage, true) => ({ s with storage := storage }, .none)
      | (storage, false) => ({ s with storage := storage }.toPhase c i (losing call), .none)

/-- The end of a call. Middleware that did not await `next` may still run it later. -/
def releaseLock (c : Nat) : StateMachineSystem × StateMachineAnswer :=
  match s.calls c with
  | none => (s, .none)
  | some (_, call) =>
    match lockOf call with
    | none => (s, .none)
    | some (id, lock) => ({ s with storage := s.storage.releaseLock id lock.token }, .none)

end StateMachineSystem

/-- The transition function of a set of instances on one storage. -/
def stateMachineSystem (defs : Nat → StateMachineDefinition) :
    Machine StateMachineSystem StateMachineOp StateMachineAnswer where
  step s o := match o with
    | .advance ms => ({ s with storage := { s.storage with now := s.storage.now + ms } }, .none)
    | .start c i p => s.start c i p
    | .create c => s.create defs c
    | .send c i p uuid => s.acquireLock c i (.send p) uuid
    | .fireTimeout c i id fromState uuid => s.fireTimeout defs c i id fromState uuid
    | .checkTimeouts c i id => s.checkTimeouts defs c i id
    | .fireDue c uuid => s.fireDue defs c uuid
    | .load c => s.load defs c
    | .decide c guard action => s.decide defs c guard action
    | .commit c rewrite uuid => s.commit defs c rewrite uuid
    | .heartbeat c => s.heartbeat c
    | .releaseLock c => s.releaseLock c

end Promin.Durable

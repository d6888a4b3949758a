import Promin.Durable.StateMachine

/-!
# The history of a durable state machine is a chain

Whoever holds the lock, a transition is saved only by a compare-and-set on state
and revision, so each event starts where the one before ended and the stored
machine is the last event's.
-/

namespace Promin.Durable

open StateMachineSystem Machine JsMap InMemoryStateMachineStorage

/-! ## Chains -/

/-- The events lead from `initial` on, each from where the one before ended. -/
def Chained : (initial : String) → List TransitionEvent → Prop
  | _, [] => True
  | initial, e :: rest => e.from = initial ∧ Chained e.to rest

def lastState (initial : String) (events : List TransitionEvent) : String :=
  (events.getLast?.map (·.to)).getD initial

def lastContext (context : JsValue) (events : List TransitionEvent) : JsValue :=
  (events.getLast?.map (·.context)).getD context

@[simp] theorem lastState_snoc (initial : String) (events : List TransitionEvent)
    (e : TransitionEvent) : lastState initial (events ++ [e]) = e.to := by
  simp [lastState]

@[simp] theorem lastContext_snoc (context : JsValue) (events : List TransitionEvent)
    (e : TransitionEvent) : lastContext context (events ++ [e]) = e.context := by
  simp [lastContext]

theorem lastState_cons (initial : String) (e : TransitionEvent) (rest : List TransitionEvent) :
    lastState initial (e :: rest) = lastState e.to rest := by
  unfold lastState
  cases rest with
  | nil => rfl
  | cons e' rest => simp [List.getLast?_cons]

theorem Chained.snoc {initial : String} {events : List TransitionEvent} {e : TransitionEvent}
    (h : Chained initial events) (he : e.from = lastState initial events) :
    Chained initial (events ++ [e]) := by
  induction events generalizing initial with
  | nil => exact ⟨he, trivial⟩
  | cons first rest ih =>
    rw [lastState_cons] at he
    exact ⟨h.1, ih h.2 he⟩

/-! ## What a step writes -/

structure StartedMachine where
  id : String
  initial : String
  context : JsValue

def StateMachineAnswer.startedMachines : StateMachineAnswer → List StartedMachine
  | .started id initial context => [{ id := id, initial := initial, context := context }]
  | .none | .committed _ | .threw _ | .notFired => []

def StateMachineAnswer.committedIds : StateMachineAnswer → List String
  | .committed id => [id]
  | .none | .started _ _ _ | .threw _ | .notFired => []

variable (defs : Nat → StateMachineDefinition)

def startsOf (answers : List StateMachineAnswer) (id : String) : List StartedMachine :=
  (answers.flatMap (·.startedMachines)).filter (·.id = id)

def commitsOf (answers : List StateMachineAnswer) (id : String) : Nat :=
  (answers.flatMap (·.committedIds)).count id

/-- The steps under which the history stays a chain: a machine is created only where none
    is stored, in a registered state, and middleware leaves a registered target. -/
def orderly (s : StateMachineSystem) : StateMachineOp → Bool
  | .create c =>
    match s.calls c with
    | some (i, .starting p) =>
      !s.storage.machines.has p.id && (defs i).states.has (defs i).initialState
    | _ => true
  | .commit c rewrite _ =>
    match s.calls c with
    | some (i, .decided (.send _) _ _ _ false) =>
      !(defs i).hasMiddleware || (defs i).states.has rewrite.to
    | _ => true
  | .advance _ | .start _ _ _ | .send _ _ _ _ | .fireTimeout _ _ _ _ _ | .checkTimeouts _ _ _
  | .fireDue _ _ | .load _ | .decide _ _ _ | .heartbeat _ | .releaseLock _ => true

def SameHistory (s s' : StateMachineSystem) : Prop :=
  s'.storage.machines = s.storage.machines ∧ s'.storage.events = s.storage.events

variable {defs} {s : StateMachineSystem}

/-- Locks aside, the storage is as it was. -/
structure SameRows (storage storage' : InMemoryStateMachineStorage) : Prop where
  machines : storage'.machines = storage.machines
  events : storage'.events = storage.events
  now : storage'.now = storage.now

variable (storage : InMemoryStateMachineStorage)

theorem tryLock_rows (id : String) (durationMs : Int)
    (uuid : String) : SameRows storage (storage.tryLock id durationMs uuid).1 := by
  unfold tryLock
  split
  · split <;> exact ⟨rfl, rfl, rfl⟩
  · exact ⟨rfl, rfl, rfl⟩

theorem extendLock_rows (id token : String)
    (durationMs : Int) : SameRows storage (storage.extendLock id token durationMs).1 := by
  unfold extendLock
  split
  · exact ⟨rfl, rfl, rfl⟩
  · split <;> exact ⟨rfl, rfl, rfl⟩

theorem releaseLock_rows (id token : String) :
    SameRows storage (storage.releaseLock id token) := by
  unfold InMemoryStateMachineStorage.releaseLock
  split
  · split <;> exact ⟨rfl, rfl, rfl⟩
  · exact ⟨rfl, rfl, rfl⟩

/-- A step that writes no history and answers no start and no commit. -/
def Quiet (s : StateMachineSystem) (r : StateMachineSystem × StateMachineAnswer) : Prop :=
  SameHistory s r.1 ∧ r.2.startedMachines = [] ∧ r.2.committedIds = []

private theorem acquireLock_quiet (s : StateMachineSystem) (c i : Nat) (request : MachineRequest)
    (uuid : String) : Quiet s (s.acquireLock c i request uuid) := by
  obtain ⟨hmachines, hevents, -⟩ := tryLock_rows s.storage request.id lockDurationMs uuid
  unfold acquireLock
  cases htry : s.storage.tryLock request.id lockDurationMs uuid with
  | mk storage token =>
    rw [htry] at hmachines hevents
    cases token with
    | some token => exact ⟨⟨hmachines, hevents⟩, rfl, rfl⟩
    | none => cases request <;> exact ⟨⟨hmachines, hevents⟩, rfl, rfl⟩

private theorem fireTimeout_quiet (s : StateMachineSystem) (c i : Nat)
    (id fromState uuid : String) : Quiet s (s.fireTimeout defs c i id fromState uuid) := by
  unfold fireTimeout
  split
  · exact ⟨⟨rfl, rfl⟩, rfl, rfl⟩
  · exact acquireLock_quiet s c i (.timeout id fromState) uuid

theorem withinRate_frame (s : StateMachineSystem) (d : StateMachineDefinition) (i : Nat)
    (id : String) :
    (s.withinRate d i id).1.storage = s.storage ∧ (s.withinRate d i id).1.calls = s.calls := by
  unfold withinRate
  split
  · exact ⟨rfl, rfl⟩
  · exact ⟨rfl, rfl⟩
  · rename_i limit _ _
    have hcheck : (s.checkRateLimit i id limit).1.storage = s.storage ∧
        (s.checkRateLimit i id limit).1.calls = s.calls := by
      unfold checkRateLimit
      simp only
      split <;> exact ⟨rfl, rfl⟩
    cases hrate : s.checkRateLimit i id limit with
    | mk s' within =>
      rw [hrate] at hcheck
      cases within <;> exact hcheck

private theorem load_quiet (s : StateMachineSystem) (c : Nat) : Quiet s (s.load defs c) := by
  unfold StateMachineSystem.load
  cases hcall : s.calls c with
  | none => exact ⟨⟨rfl, rfl⟩, rfl, rfl⟩
  | some call =>
    obtain ⟨i, call⟩ := call
    cases call with
    | locked request lock =>
      simp only
      cases hm : s.storage.load request.id with
      | none => cases request <;> exact ⟨⟨rfl, rfl⟩, rfl, rfl⟩
      | some m =>
        cases request with
        | timeout id fromState =>
          simp only
          split <;> exact ⟨⟨rfl, rfl⟩, rfl, rfl⟩
        | send p =>
          have hrate := (withinRate_frame s (defs i) i p.id).1
          simp only
          cases hcheck : (defs i).checkMachine p.id m with
          | error message => exact ⟨⟨rfl, rfl⟩, rfl, rfl⟩
          | ok _ =>
            simp only
            cases hwithin : s.withinRate (defs i) i p.id with
            | mk s' within =>
              rw [hwithin] at hrate
              have hsame : SameHistory s s' := ⟨by rw [hrate], by rw [hrate]⟩
              cases within with
              | error message => exact ⟨hsame, rfl, rfl⟩
              | ok _ =>
                simp only
                cases (defs i).findTransition p.event m.current with
                | none | some t => exact ⟨hsame, rfl, rfl⟩
    | starting _ | due _ _ | loaded _ _ _ | decided _ _ _ _ _ | ending _ _ =>
      exact ⟨⟨rfl, rfl⟩, rfl, rfl⟩

variable {guard : Except String Bool}

variable {id uuid : String} {o : StateMachineOp} {action : ActionResult}
variable {request : MachineRequest} {answer : StateMachineAnswer}
variable {storage : InMemoryStateMachineStorage}

private theorem guardPasses_error {hasGuard : Bool} {rejected : StateMachineAnswer}
    (hrejected : rejected.startedMachines = [] ∧ rejected.committedIds = [])
    (h : guardPasses hasGuard guard rejected = .error answer) :
    answer.startedMachines = [] ∧ answer.committedIds = [] := by
  unfold guardPasses at h
  split at h
  · split at h
    · cases h
      exact ⟨rfl, rfl⟩
    · exact nomatch h
    · cases h
      exact hrejected
  · exact nomatch h

variable {m : MachineState} {d : StateMachineDefinition}

private theorem decideRequest_error (h : decideRequest d request m guard action = .error answer) :
    answer.startedMachines = [] ∧ answer.committedIds = [] := by
  cases request with
  | send p =>
    simp only [decideRequest, decideSend] at h
    cases ht : d.findTransition p.event m.current with
    | none =>
      simp only [ht] at h
      cases h
      exact ⟨rfl, rfl⟩
    | some t =>
      simp only [ht] at h
      split at h
      · rename_i hguard
        cases h
        exact guardPasses_error ⟨rfl, rfl⟩ hguard
      · split at h
        · cases h
          exact ⟨rfl, rfl⟩
        · exact nomatch h
  | timeout id fromState =>
    simp only [decideRequest, decideTimeout] at h
    cases ht : d.timeoutOf fromState with
    | none =>
      simp only [ht] at h
      cases h
      exact ⟨rfl, rfl⟩
    | some cfg =>
      simp only [ht] at h
      split at h
      · rename_i hguard
        cases h
        exact guardPasses_error ⟨rfl, rfl⟩ hguard
      · split at h
        · exact nomatch h
        · cases h
          exact ⟨rfl, rfl⟩

private theorem decideTarget_has {t : TransitionConfig} {event : String} {target : String}
    {context : JsValue} (h : d.decideTarget t event m action = .ok (target, context)) :
    d.states.has target = true := by
  unfold StateMachineDefinition.decideTarget at h
  simp only at h
  split at h
  · exact nomatch h
  · split at h
    · rename_i hhas
      cases h
      exact hhas
    · exact nomatch h

theorem decideRequest_ok
    {tx : TransitionContext} (h : decideRequest d request m guard action = .ok tx) :
    tx.machineId = request.id ∧ d.states.has tx.to = true := by
  cases request with
  | send p =>
    simp only [decideRequest, decideSend] at h
    cases ht : d.findTransition p.event m.current with
    | none => simp [ht] at h
    | some t =>
      simp only [ht] at h
      split at h
      · exact nomatch h
      · split at h
        · exact nomatch h
        · rename_i hdecided
          cases h
          exact ⟨rfl, decideTarget_has hdecided⟩
  | timeout id fromState =>
    simp only [decideRequest, decideTimeout] at h
    cases ht : d.timeoutOf fromState with
    | none => simp [ht] at h
    | some cfg =>
      simp only [ht] at h
      split at h
      · exact nomatch h
      · split at h
        · rename_i hhas
          cases h
          exact ⟨rfl, hhas⟩
        · exact nomatch h

private theorem decide_quiet (s : StateMachineSystem) (c : Nat) (guard : Except String Bool)
    (action : ActionResult) : Quiet s (s.decide defs c guard action) := by
  unfold StateMachineSystem.decide
  split
  · split
    · rename_i hdecided
      exact ⟨⟨rfl, rfl⟩, decideRequest_error hdecided⟩
    · exact ⟨⟨rfl, rfl⟩, rfl, rfl⟩
  · exact ⟨⟨rfl, rfl⟩, rfl, rfl⟩

private theorem heartbeat_quiet (s : StateMachineSystem) (c : Nat) : Quiet s (s.heartbeat c) := by
  unfold StateMachineSystem.heartbeat
  split
  · exact ⟨⟨rfl, rfl⟩, rfl, rfl⟩
  · split
    · exact ⟨⟨rfl, rfl⟩, rfl, rfl⟩
    · rename_i id lock _
      obtain ⟨hmachines, hevents, -⟩ := extendLock_rows s.storage id lock.token lockDurationMs
      split <;> rename_i storage heq <;> rw [heq] at hmachines hevents <;>
        exact ⟨⟨hmachines, hevents⟩, rfl, rfl⟩

private theorem releaseLock_quiet (s : StateMachineSystem) (c : Nat) :
    Quiet s (s.releaseLock c) := by
  unfold StateMachineSystem.releaseLock
  split
  · exact ⟨⟨rfl, rfl⟩, rfl, rfl⟩
  · split
    · exact ⟨⟨rfl, rfl⟩, rfl, rfl⟩
    · rename_i id lock _
      obtain ⟨hmachines, hevents, -⟩ := releaseLock_rows s.storage id lock.token
      exact ⟨⟨hmachines, hevents⟩, rfl, rfl⟩

/-- A step that is not quiet. -/
inductive Writes (defs : Nat → StateMachineDefinition) (s : StateMachineSystem) :
    StateMachineOp → Prop
  /-- A `start` call stores its machine. -/
  | create {c i : Nat} {p : MachineStartParams} (hcall : s.calls c = some (i, .starting p)) :
      Writes defs s (.create c)
  /-- A decided call saves its transition. -/
  | commit {c i : Nat} {request : MachineRequest} {lock : HeldMachineLock} {m : MachineState}
      {tx : TransitionContext} {rewrite : MiddlewareRewrite} {uuid : String}
      {storage : InMemoryStateMachineStorage}
      (hcall : s.calls c = some (i, .decided request lock m tx false))
      (hsaved : s.storage.transition
        (transitionParams m (rewritten (defs i) request tx rewrite)) uuid = (storage, .ok ()))
      (hnext : (stateMachineSystem defs).step s (.commit c rewrite uuid) =
        ({ s with storage := storage }.toPhase c i
          (.decided request lock m (rewritten (defs i) request tx rewrite) true),
          .committed request.id)) :
      Writes defs s (.commit c rewrite uuid)

theorem step_cases (defs : Nat → StateMachineDefinition) (s : StateMachineSystem)
    (o : StateMachineOp) :
    Quiet s ((stateMachineSystem defs).step s o) ∨ Writes defs s o := by
  cases o with
  | advance ms => exact .inl ⟨⟨rfl, rfl⟩, rfl, rfl⟩
  | start c i p =>
    left
    simp only [stateMachineSystem, StateMachineSystem.start]
    split <;> exact ⟨⟨rfl, rfl⟩, rfl, rfl⟩
  | create c =>
    cases hcall : s.calls c with
    | none =>
      left
      simp only [stateMachineSystem, StateMachineSystem.create, hcall]
      exact ⟨⟨rfl, rfl⟩, rfl, rfl⟩
    | some call =>
      obtain ⟨i, call⟩ := call
      cases call with
      | starting p => exact .inr (.create hcall)
      | due _ _ | locked _ _ | loaded _ _ _ | decided _ _ _ _ _ | ending _ _ =>
        left
        simp only [stateMachineSystem, StateMachineSystem.create, hcall]
        exact ⟨⟨rfl, rfl⟩, rfl, rfl⟩
  | send c i p uuid => exact .inl (acquireLock_quiet s c i (.send p) uuid)
  | fireTimeout c i id fromState uuid => exact .inl (fireTimeout_quiet s c i id fromState uuid)
  | checkTimeouts c i id =>
    left
    simp only [stateMachineSystem, StateMachineSystem.checkTimeouts]
    split
    · exact ⟨⟨rfl, rfl⟩, rfl, rfl⟩
    · split
      · exact ⟨⟨rfl, rfl⟩, rfl, rfl⟩
      · split <;> exact ⟨⟨rfl, rfl⟩, rfl, rfl⟩
  | fireDue c uuid =>
    left
    simp only [stateMachineSystem, StateMachineSystem.fireDue]
    split
    · exact fireTimeout_quiet s c _ _ _ uuid
    · exact ⟨⟨rfl, rfl⟩, rfl, rfl⟩
  | load c => exact .inl (load_quiet s c)
  | decide c guard action => exact .inl (decide_quiet s c guard action)
  | commit c rewrite uuid =>
    cases hstep : (stateMachineSystem defs).step s (.commit c rewrite uuid) with
    | mk s' answer =>
      have hcommit := hstep
      simp only [stateMachineSystem, StateMachineSystem.commit] at hcommit
      split at hcommit
      · rename_i i request lock m tx hcall
        split at hcommit
        · -- The lock was seen lost before the save.
          cases hcommit
          exact .inl ⟨⟨rfl, rfl⟩, rfl, rfl⟩
        · split at hcommit
          · cases hcommit
            exact .inl ⟨⟨rfl, rfl⟩, rfl, rfl⟩
          · rename_i storage hsaved
            right
            exact .commit hcall hsaved (hstep.trans hcommit.symm)
      · cases hcommit
        exact .inl ⟨⟨rfl, rfl⟩, rfl, rfl⟩
  | heartbeat c => exact .inl (heartbeat_quiet s c)
  | releaseLock c => exact .inl (releaseLock_quiet s c)

/-! ## Calls in flight -/

def begins : MachineCall → Bool
  | .starting _ | .due _ _ | .locked _ _ => true
  | .loaded _ _ _ | .decided _ _ _ _ _ | .ending _ _ => false

def LoadChecked (d : StateMachineDefinition) (m : MachineState) : MachineRequest → Prop
  | .send p => d.checkMachine p.id m = .ok ()
  | .timeout _ fromState => m.current = fromState

/-- How call `c` of instance `i` came to its phase in one step. -/
inductive CallMoved (defs : Nat → StateMachineDefinition) (s : StateMachineSystem) :
    StateMachineOp → Nat → Nat → MachineCall → Prop
  | kept {o : StateMachineOp} {c i : Nat} {call : MachineCall}
    (hcall : s.calls c = some (i, call)) :
      CallMoved defs s o c i call
  | begun {o : StateMachineOp} {c i : Nat} {call : MachineCall} (hbegins : begins call = true) :
      CallMoved defs s o c i call
  | ended {o : StateMachineOp} {c i : Nat} {request : MachineRequest} {lock : HeldMachineLock} :
      CallMoved defs s o c i (.ending request lock)
  | loaded {c i : Nat} {request : MachineRequest} {lock : HeldMachineLock} {m : MachineState}
      (hcall : s.calls c = some (i, .locked request lock))
      (hload : s.storage.load request.id = some m) (hchecked : LoadChecked (defs i) m request) :
      CallMoved defs s (.load c) c i (.loaded request lock m)
  | decided {c i : Nat} {request : MachineRequest} {lock : HeldMachineLock} {m : MachineState}
      {tx : TransitionContext} {guard : Except String Bool} {action : ActionResult}
      (hcall : s.calls c = some (i, .loaded request lock m))
      (htx : decideRequest (defs i) request m guard action = .ok tx) :
      CallMoved defs s (.decide c guard action) c i (.decided request lock m tx false)
  | committed {c i : Nat} {request : MachineRequest} {lock : HeldMachineLock} {m : MachineState}
      {tx : TransitionContext} {rewrite : MiddlewareRewrite} {uuid : String}
      (hcall : s.calls c = some (i, .decided request lock m tx false)) :
      CallMoved defs s (.commit c rewrite uuid) c i
        (.decided request lock m (rewritten (defs i) request tx rewrite) true)
  | losing {o : StateMachineOp} {c i : Nat} {call : MachineCall}
      (hcall : s.calls c = some (i, call)) :
      CallMoved defs s o c i (StateMachineSystem.losing call)

section

variable {s' : StateMachineSystem} {o : StateMachineOp} {c c' i j : Nat}
  {call call' : MachineCall}

private theorem toPhase_moved (hcalls : s'.calls = s.calls)
    (hmoved : CallMoved defs s o c i call) (h : (s'.toPhase c i call).calls c' = some (j, call')) :
    CallMoved defs s o c' j call' := by
  by_cases hc : c' = c
  · subst hc
    simp only [StateMachineSystem.toPhase, Function.update_self, Option.some.injEq,
      Prod.mk.injEq] at h
    obtain ⟨rfl, rfl⟩ := h
    exact hmoved
  · simp only [StateMachineSystem.toPhase, Function.update_of_ne hc, hcalls] at h
    exact .kept h

private theorem done_moved (hcalls : s'.calls = s.calls)
    (h : (s'.done c).calls c' = some (j, call')) : CallMoved defs s o c' j call' := by
  by_cases hc : c' = c
  · subst hc
    simp [StateMachineSystem.done] at h
  · simp only [StateMachineSystem.done, Function.update_of_ne hc, hcalls] at h
    exact .kept h

private theorem acquireLock_moved {request : MachineRequest} {uuid : String}
    (h : (s.acquireLock c i request uuid).1.calls c' = some (j, call')) :
    CallMoved defs s o c' j call' := by
  unfold acquireLock at h
  split at h
  · exact toPhase_moved rfl (.begun rfl) h
  · exact done_moved rfl h

private theorem fireTimeout_moved {id fromState uuid : String}
    (h : (s.fireTimeout defs c i id fromState uuid).1.calls c' = some (j, call')) :
    CallMoved defs s o c' j call' := by
  unfold fireTimeout at h
  split at h
  · exact done_moved rfl h
  · exact acquireLock_moved h

private theorem load_moved (h : (s.load defs c).1.calls c' = some (j, call')) :
    CallMoved defs s (.load c) c' j call' := by
  unfold StateMachineSystem.load at h
  split at h
  · rename_i i request lock hcall
    cases hm : s.storage.load request.id with
    | none =>
      simp only [hm] at h
      exact toPhase_moved rfl .ended h
    | some m =>
      simp only [hm] at h
      cases request with
      | timeout id fromState =>
        simp only at h
        split at h
        · exact toPhase_moved rfl .ended h
        · rename_i hcurrent
          exact toPhase_moved rfl (.loaded hcall hm (not_not.mp hcurrent)) h
      | send p =>
        have hrate := (withinRate_frame s (defs i) i p.id).2
        simp only at h
        cases hcheck : (defs i).checkMachine p.id m with
        | error message =>
          simp only [hcheck] at h
          exact toPhase_moved rfl .ended h
        | ok _ =>
          simp only [hcheck] at h
          cases hwithin : s.withinRate (defs i) i p.id with
          | mk s' within =>
            rw [hwithin] at hrate
            simp only [hwithin] at h
            cases within with
            | error message => exact toPhase_moved hrate .ended h
            | ok _ =>
              simp only at h
              cases ht : (defs i).findTransition p.event m.current with
              | none =>
                simp only [ht] at h
                exact toPhase_moved hrate .ended h
              | some t =>
                simp only [ht] at h
                exact toPhase_moved hrate (.loaded hcall hm hcheck) h
  · exact .kept h

/-- Where a call in flight can have come from. -/
theorem call_moved (defs : Nat → StateMachineDefinition) (s : StateMachineSystem)
    (o : StateMachineOp) {c j : Nat} {call : MachineCall}
    (h : ((stateMachineSystem defs).next s o).calls c = some (j, call)) :
    CallMoved defs s o c j call := by
  cases o with
  | advance ms => exact .kept h
  | start c' i p =>
    simp only [Machine.next, stateMachineSystem, StateMachineSystem.start] at h
    split at h
    · exact done_moved rfl h
    · exact toPhase_moved rfl (.begun rfl) h
  | create c' =>
    simp only [Machine.next, stateMachineSystem, StateMachineSystem.create] at h
    split at h
    · exact done_moved rfl h
    · exact .kept h
  | send c' i p uuid => exact acquireLock_moved h
  | fireTimeout c' i id fromState uuid => exact fireTimeout_moved h
  | checkTimeouts c' i id =>
    simp only [Machine.next, stateMachineSystem, StateMachineSystem.checkTimeouts] at h
    split at h
    · exact done_moved rfl h
    · split at h
      · exact done_moved rfl h
      · split at h
        · exact done_moved rfl h
        · exact toPhase_moved rfl (.begun rfl) h
  | fireDue c' uuid =>
    simp only [Machine.next, stateMachineSystem, StateMachineSystem.fireDue] at h
    split at h
    · exact fireTimeout_moved h
    · exact .kept h
  | load c' => exact load_moved h
  | decide c' guard action =>
    simp only [Machine.next, stateMachineSystem, StateMachineSystem.decide] at h
    split at h
    · rename_i i request lock m hcall
      split at h
      · exact toPhase_moved rfl .ended h
      · rename_i tx htx
        exact toPhase_moved rfl (.decided hcall htx) h
    · exact .kept h
  | commit c' rewrite uuid =>
    simp only [Machine.next, stateMachineSystem, StateMachineSystem.commit] at h
    split at h
    · rename_i i request lock m tx hcall
      split at h
      · exact .kept h
      · split at h
        · exact .kept h
        · exact toPhase_moved rfl (.committed hcall) h
    · exact .kept h
  | heartbeat c' =>
    simp only [Machine.next, stateMachineSystem, StateMachineSystem.heartbeat] at h
    split at h
    · exact .kept h
    · rename_i i call' hcall
      split at h
      · exact .kept h
      · split at h
        · exact .kept h
        · exact toPhase_moved rfl (.losing hcall) h
  | releaseLock c' =>
    simp only [Machine.next, stateMachineSystem, StateMachineSystem.releaseLock] at h
    split at h
    · exact .kept h
    · split at h <;> exact .kept h

end

/-- A decided call is about its own machine; until it saves, its target is a registered
    state. -/
def CallOk (d : StateMachineDefinition) : MachineCall → Prop
  | .decided request _ _ tx committed =>
    tx.machineId = request.id ∧ (committed = false → d.states.has tx.to = true)
  | .starting _ | .due _ _ | .locked _ _ | .loaded _ _ _ | .ending _ _ => True

def CallsOk (defs : Nat → StateMachineDefinition) (s : StateMachineSystem) : Prop :=
  ∀ c i call, s.calls c = some (i, call) → CallOk (defs i) call

theorem rewritten_machineId (d : StateMachineDefinition) (request : MachineRequest)
    (tx : TransitionContext) (rewrite : MiddlewareRewrite) :
    (rewritten d request tx rewrite).machineId = tx.machineId := by
  unfold rewritten
  split
  · split <;> rfl
  · rfl

theorem CallsOk.next (h : CallsOk defs s) (o : StateMachineOp) :
    CallsOk defs ((stateMachineSystem defs).next s o) := by
  intro c i call hc
  cases call_moved defs s o hc with
  | kept hcall => exact h c i call hcall
  | begun hbegins => cases call <;> trivial
  | ended => trivial
  | loaded hcall hload hchecked => trivial
  | decided hcall htx =>
    have hok := decideRequest_ok htx
    exact ⟨hok.1, fun _ => hok.2⟩
  | committed hcall =>
    have hid := (h c i _ hcall).1
    exact ⟨(rewritten_machineId _ _ _ _).trans hid, fun hopen => nomatch hopen⟩
  | @losing _ _ _ call' hcall =>
    have hbefore := h c i call' hcall
    cases call' <;> exact hbefore

structure ChainFrom (defs : Nat → StateMachineDefinition) (m : MachineState)
    (events : List TransitionEvent) (st : StartedMachine) : Prop where
  chained : Chained st.initial events
  revision : m.revision = events.length
  current : m.current = lastState st.initial events
  context : m.context = lastContext st.context events
  /-- The current state is a state of an instance. -/
  registered : ∃ i, (defs i).states.has m.current = true

/-- What is stored of a machine, against the answers so far. -/
structure HistoryIsChain (defs : Nat → StateMachineDefinition) (s : StateMachineSystem)
    (answers : List StateMachineAnswer) (id : String) : Prop where
  unstarted : s.storage.load id = none → startsOf answers id = [] ∧ s.storage.eventsOf id = []
  /-- A stored machine was started exactly once. -/
  started : ∀ m, s.storage.load id = some m → ∃ st, startsOf answers id = [st] ∧
    ChainFrom defs m (s.storage.eventsOf id) st
  /-- Each saved transition has its event. -/
  commits : commitsOf answers id = (s.storage.eventsOf id).length

variable {answers : List StateMachineAnswer}

theorem startsOf_snoc (answers : List StateMachineAnswer) (a : StateMachineAnswer) (id : String) :
    startsOf (answers ++ [a]) id =
      startsOf answers id ++ a.startedMachines.filter (·.id = id) := by
  simp [startsOf]

theorem commitsOf_snoc (answers : List StateMachineAnswer) (a : StateMachineAnswer) (id : String) :
    commitsOf (answers ++ [a]) id = commitsOf answers id + a.committedIds.count id := by
  simp [commitsOf]

theorem HistoryIsChain.quiet {r : StateMachineSystem × StateMachineAnswer}
    (h : HistoryIsChain defs s answers id) (hquiet : Quiet s r) :
    HistoryIsChain defs r.1 (answers ++ [r.2]) id := by
  obtain ⟨⟨hmachines, hevents⟩, hstarts, hcommits⟩ := hquiet
  have hload : r.1.storage.load id = s.storage.load id := by
    simp [InMemoryStateMachineStorage.load, hmachines]
  have heventsOf : r.1.storage.eventsOf id = s.storage.eventsOf id := by
    simp [eventsOf, hevents]
  have hstartsOf : startsOf (answers ++ [r.2]) id = startsOf answers id := by
    simp [startsOf_snoc, hstarts]
  have hcommitsOf : commitsOf (answers ++ [r.2]) id = commitsOf answers id := by
    simp [commitsOf_snoc, hcommits]
  constructor
  · rw [hload, heventsOf, hstartsOf]
    exact h.unstarted
  · rw [hload, heventsOf, hstartsOf]
    exact h.started
  · rw [heventsOf, hcommitsOf]
    exact h.commits

theorem HistoryIsChain.create {c i : Nat} {p : MachineStartParams}
    (h : HistoryIsChain defs s answers id) (hcall : s.calls c = some (i, .starting p))
    (horderly : orderly defs s (.create c) = true) :
    HistoryIsChain defs ((stateMachineSystem defs).next s (.create c))
      (answers ++ [(stateMachineSystem defs).out s (.create c)]) id := by
  simp only [orderly, hcall, Bool.and_eq_true, Bool.not_eq_true'] at horderly
  obtain ⟨hnone, hregistered⟩ := horderly
  have hfree : s.storage.machines.get p.id = none := by
    simpa [has] using hnone
  simp only [Machine.next, Machine.out, stateMachineSystem, StateMachineSystem.create, hcall]
  by_cases hid : p.id = id
  · subst hid
    have hbefore := h.unstarted hfree
    constructor
    · intro hload
      simp [InMemoryStateMachineStorage.load, InMemoryStateMachineStorage.create,
        createParams] at hload
    · intro m hm
      have hrow : m = s.storage.newMachine (createParams (defs i) p) := by
        simpa [InMemoryStateMachineStorage.load, InMemoryStateMachineStorage.create,
          createParams] using hm.symm
      have hempty : ({ s.done c with
          storage := s.storage.create (createParams (defs i) p) } :
            StateMachineSystem).storage.eventsOf p.id = [] := by
        simp [InMemoryStateMachineStorage.eventsOf, InMemoryStateMachineStorage.create,
          createParams]
      exists { id := p.id, initial := (defs i).initialState, context := p.context }
      constructor
      · simp [startsOf_snoc, hbefore.1, StateMachineAnswer.startedMachines]
      · rw [hempty, hrow]
        exact { chained := trivial, revision := rfl, current := rfl, context := rfl,
                registered := ⟨i, hregistered⟩ }
    · have hcommits := h.commits
      rw [hbefore.2] at hcommits
      simp [commitsOf_snoc, hcommits, StateMachineAnswer.committedIds,
        InMemoryStateMachineStorage.eventsOf, InMemoryStateMachineStorage.create, createParams]
  · have hload : (s.storage.create (createParams (defs i) p)).load id = s.storage.load id :=
      get_set_ne _ _ hid
    have hevents : (s.storage.create (createParams (defs i) p)).eventsOf id =
        s.storage.eventsOf id := by
      simp only [InMemoryStateMachineStorage.eventsOf, InMemoryStateMachineStorage.create]
      rw [get_set_ne _ _ (show (createParams (defs i) p).id ≠ id from hid)]
    have hstarts : startsOf (answers ++
        [.started p.id (defs i).initialState p.context]) id = startsOf answers id := by
      simp [startsOf_snoc, StateMachineAnswer.startedMachines, hid]
    have hcommits : commitsOf (answers ++
        [.started p.id (defs i).initialState p.context]) id = commitsOf answers id := by
      simp [commitsOf_snoc, StateMachineAnswer.committedIds]
    constructor
    · rw [hstarts]
      simp only [hload, hevents]
      exact h.unstarted
    · rw [hstarts]
      simp only [hload, hevents]
      exact h.started
    · rw [hcommits]
      simp only [hevents]
      exact h.commits

def savedEvent (storage : InMemoryStateMachineStorage) (p : MachineTransitionParams)
    (uuid : String) : TransitionEvent where
  id := uuid
  event := p.event
  «from» := p.from
  «to» := p.to
  context := p.context
  eventData := p.eventData
  metadata := p.metadata
  createdAt := storage.now

variable {p : MachineTransitionParams}

/-- What the compare-and-set found and wrote when it went through. -/
theorem transition_ok {storage' : InMemoryStateMachineStorage}
    (h : storage.transition p uuid = (storage', .ok ())) :
    ∃ m, storage.load p.id = some m ∧ m.current = p.from ∧
      storage'.load p.id = some { m with
        current := p.to
        context := p.context
        revision := m.revision + 1
        updatedAt := storage.now } ∧
      storage'.eventsOf p.id = storage.eventsOf p.id ++ [savedEvent storage p uuid] ∧
      ∀ id, p.id ≠ id → storage'.load id = storage.load id ∧
        storage'.eventsOf id = storage.eventsOf id := by
  unfold transition at h
  cases hm : storage.machines.get p.id with
  | none => simp [hm] at h
  | some m =>
    simp only [hm] at h
    split at h
    · simp at h
    · rename_i hmatches
      have hfrom : m.current = p.from := by
        by_contra hne
        exact hmatches (.inl hne)
      cases h
      refine ⟨m, hm, hfrom, ?_, ?_, ?_⟩
      · simp [InMemoryStateMachineStorage.load]
      · simp [eventsOf, savedEvent]
      · intro id hid
        constructor
        · exact get_set_ne _ _ hid
        · simp only [eventsOf]
          rw [get_set_ne _ _ hid]

theorem transition_revision {storage' : InMemoryStateMachineStorage}
    (h : storage.transition p uuid = (storage', .ok ())) (hm : storage.load p.id = some m) :
    m.revision = p.expectedRevision ∧ storage'.now = storage.now ∧
      storage'.locks = storage.locks := by
  unfold transition at h
  rw [show storage.machines.get p.id = some m from hm] at h
  simp only at h
  split at h
  · simp at h
  · rename_i hmatches
    have hrevision : m.revision = p.expectedRevision := by
      by_contra hne
      exact hmatches (.inr hne)
    cases h
    exact ⟨hrevision, rfl, rfl⟩

theorem HistoryIsChain.commit {machineId : String}
 {s' : StateMachineSystem} (h : HistoryIsChain defs s answers id)
    (hsaved : s.storage.transition p uuid = (storage, .ok ())) (hs' : s'.storage = storage)
    (hid : p.id = machineId) (hanswer : answer = .committed machineId)
    (hregistered : ∃ i, (defs i).states.has p.to = true) :
    HistoryIsChain defs s' (answers ++ [answer]) id := by
  obtain ⟨m, hm, hfrom, hload, hevents, hother⟩ := transition_ok hsaved
  subst hs' hid hanswer
  have hstarts : startsOf (answers ++ [.committed p.id]) id = startsOf answers id := by
    simp [startsOf_snoc, StateMachineAnswer.startedMachines]
  by_cases hid : p.id = id
  · subst hid
    obtain ⟨st, hst, hchain⟩ := h.started m hm
    constructor
    · rw [hload]
      exact fun hnone => nomatch hnone
    · intro m' hm'
      rw [hload] at hm'
      cases hm'
      exists st
      rw [hstarts, hevents]
      constructor
      · exact hst
      · -- The event starts where the machine stood, which is where the chain led.
        have hlink : (savedEvent s.storage p uuid).from = lastState st.initial
            (s.storage.eventsOf p.id) := by
          rw [← hchain.current, hfrom]
          rfl
        have hrevision : m.revision + 1 =
            (s.storage.eventsOf p.id ++ [savedEvent s.storage p uuid]).length := by
          simp [hchain.revision]
        exact { chained := hchain.chained.snoc hlink
                revision := hrevision
                current := by simp [savedEvent]
                context := by simp [savedEvent]
                registered := hregistered }
    · rw [hevents, commitsOf_snoc, h.commits]
      simp [StateMachineAnswer.committedIds]
  · have hcommits : commitsOf (answers ++ [.committed p.id]) id = commitsOf answers id := by
      simp [commitsOf_snoc, StateMachineAnswer.committedIds, hid]
    constructor
    · rw [hstarts, (hother id hid).1, (hother id hid).2]
      exact h.unstarted
    · rw [hstarts, (hother id hid).1, (hother id hid).2]
      exact h.started
    · rw [hcommits, (hother id hid).2]
      exact h.commits

private theorem rewritten_registered {c i : Nat} {lock : HeldMachineLock} {tx : TransitionContext}
    {rewrite : MiddlewareRewrite} (hcalls : CallsOk defs s)
    (hcall : s.calls c = some (i, .decided request lock m tx false))
    (horderly : orderly defs s (.commit c rewrite uuid) = true) :
    (rewritten (defs i) request tx rewrite).machineId = request.id ∧
      (defs i).states.has (rewritten (defs i) request tx rewrite).to = true := by
  obtain ⟨hid, hto⟩ := hcalls c i _ hcall
  cases request with
  | send p =>
    simp only [orderly, hcall, Bool.or_eq_true, Bool.not_eq_true'] at horderly
    unfold rewritten
    split
    · rename_i p' hrequest
      split
      · rename_i hmiddleware
        simp only [hmiddleware, Bool.true_eq_false, false_or] at horderly
        exact ⟨hid, horderly⟩
      · exact ⟨hid, hto rfl⟩
    · exact ⟨hid, hto rfl⟩
  | timeout id fromState => exact ⟨hid, hto rfl⟩

theorem HistoryIsChain.next (hcalls : CallsOk defs s)
    (h : HistoryIsChain defs s answers id) (horderly : orderly defs s o = true) :
    HistoryIsChain defs ((stateMachineSystem defs).next s o)
      (answers ++ [(stateMachineSystem defs).out s o]) id := by
  cases step_cases defs s o with
  | inl hquiet => exact h.quiet hquiet
  | inr hwrites =>
    cases hwrites with
    | create hcall => exact h.create hcall horderly
    | @commit c i request lock m tx rewrite uuid storage hcall hsaved hnext =>
      obtain ⟨hid, hto⟩ := rewritten_registered hcalls hcall horderly
      have hs' : ((stateMachineSystem defs).next s (.commit c rewrite uuid)).storage =
          storage := by
        rw [Machine.next, hnext]
        rfl
      have hanswer : (stateMachineSystem defs).out s (.commit c rewrite uuid) =
          .committed request.id := by
        rw [Machine.out, hnext]
      exact h.commit hsaved hs' hid hanswer ⟨i, hto⟩

theorem HistoryIsChain.events_grow
    (h : HistoryIsChain defs s answers id) (horderly : orderly defs s o = true) :
    s.storage.eventsOf id <+: ((stateMachineSystem defs).next s o).storage.eventsOf id := by
  cases step_cases defs s o with
  | inl hquiet =>
    have hsame : ((stateMachineSystem defs).next s o).storage.events = s.storage.events :=
      hquiet.1.2
    simp [eventsOf, hsame]
  | inr hwrites =>
    cases hwrites with
    | @create c i p hcall =>
      simp only [orderly, hcall, Bool.and_eq_true, Bool.not_eq_true'] at horderly
      have hfree : s.storage.machines.get p.id = none := by
        simpa [has] using horderly.1
      simp only [Machine.next, stateMachineSystem, StateMachineSystem.create, hcall]
      by_cases hid : p.id = id
      · subst hid
        rw [(h.unstarted hfree).2]
        exact List.nil_prefix
      · have hsame : (s.storage.create (createParams (defs i) p)).eventsOf id =
            s.storage.eventsOf id := by
          simp only [InMemoryStateMachineStorage.eventsOf, InMemoryStateMachineStorage.create]
          rw [get_set_ne _ _ (show (createParams (defs i) p).id ≠ id from hid)]
        simp only [hsame, List.prefix_rfl]
    | @commit c i request lock m tx rewrite uuid storage hcall hsaved hnext =>
      obtain ⟨_, _, _, _, hevents, hother⟩ := transition_ok hsaved
      have hs' : ((stateMachineSystem defs).next s (.commit c rewrite uuid)).storage =
          storage := by
        rw [Machine.next, hnext]
        rfl
      rw [hs']
      by_cases hid : (transitionParams m (rewritten (defs i) request tx rewrite)).id = id
      · subst hid
        rw [hevents]
        exact List.prefix_append _ _
      · simp only [(hother id hid).2, List.prefix_rfl]

/-- What an orderly step preserves. -/
def ChainsOk (defs : Nat → StateMachineDefinition) (s : StateMachineSystem)
    (answers : List StateMachineAnswer) : Prop :=
  CallsOk defs s ∧ ∀ id, HistoryIsChain defs s answers id

theorem ChainsOk.new (now : Int) : ChainsOk defs (.new now) [] := by
  constructor
  · intro c i call hcall
    exact nomatch hcall
  · intro id
    exact {
      unstarted := fun _ => ⟨rfl, rfl⟩
      started := fun m hm => nomatch hm
      commits := rfl }

theorem ChainsOk.next (h : ChainsOk defs s answers) (horderly : orderly defs s o = true) :
    ChainsOk defs ((stateMachineSystem defs).next s o)
      (answers ++ [(stateMachineSystem defs).out s o]) :=
  ⟨h.1.next o, fun id => (h.2 id).next h.1 horderly⟩

theorem chainsOk_run {now : Int} {ops : List StateMachineOp}
    (h : (stateMachineSystem defs).Always (fun s o => orderly defs s o = true) (.new now) ops) :
    ChainsOk defs ((stateMachineSystem defs).run (.new now) ops)
      ((stateMachineSystem defs).outs (.new now) ops) := by
  have hrun : ChainsOk defs ((stateMachineSystem defs).run (.new now) ops) ([] ++
      (stateMachineSystem defs).trace (fun s o => [(stateMachineSystem defs).out s o])
        (.new now) ops) :=
    run_induction_trace (fun s o l hc hP => hP.next hc) h (ChainsOk.new now)
  simpa [trace_out] using hrun

/-- What is told of a set of machines on one storage: each history is a chain, no saved
    transition goes away, and a `start` is refused only after another succeeded. -/
structure HistoriesAreChains (defs : Nat → StateMachineDefinition) (now : Int)
    (ops : List StateMachineOp) : Prop where
  chain : ∀ id, HistoryIsChain defs ((stateMachineSystem defs).run (.new now) ops)
    ((stateMachineSystem defs).outs (.new now) ops) id
  kept : ∀ before after, ops = before ++ after → ∀ id,
    ((stateMachineSystem defs).run (.new now) before).storage.eventsOf id <+:
      ((stateMachineSystem defs).run (.new now) ops).storage.eventsOf id
  refused : ∀ before after c i p message, ops = before ++ .start c i p :: after →
    (stateMachineSystem defs).out ((stateMachineSystem defs).run (.new now) before)
      (.start c i p) = .threw message →
    ∃ st, startsOf ((stateMachineSystem defs).outs (.new now) before) p.id = [st]

/-- The histories of every run are chains whose `start` calls store their machine where
    none is stored, in a registered state, and whose middleware leaves registered targets. -/
theorem histories_are_chains (defs : Nat → StateMachineDefinition) (now : Int)
    (ops : List StateMachineOp)
    (h : (stateMachineSystem defs).Always (fun s o => orderly defs s o = true) (.new now) ops) :
    HistoriesAreChains defs now ops := by
  constructor
  · exact (chainsOk_run h).2
  · intro before after hops id
    subst hops
    have hsplit := (always_append _ _ _ _ _).mp h
    have hbefore := chainsOk_run hsplit.1
    rw [run_append]
    -- Every later step only appends to the events there are.
    have hafter := run_induction_always
      (P := fun s => (∃ answers, ChainsOk defs s answers) ∧
        ((stateMachineSystem defs).run (.new now) before).storage.eventsOf id <+:
          s.storage.eventsOf id)
      (fun s o hc hP => by
        obtain ⟨⟨answers, hok⟩, hprefix⟩ := hP
        exact ⟨⟨_, hok.next hc⟩, hprefix.trans ((hok.2 id).events_grow hc)⟩)
      hsplit.2 ⟨⟨_, hbefore⟩, List.prefix_refl _⟩
    exact hafter.2
  · intro before after c i p message hops hrefused
    subst hops
    have hbefore := chainsOk_run ((always_append _ _ _ _ _).mp h).1
    simp only [Machine.out, stateMachineSystem, StateMachineSystem.start] at hrefused
    split at hrefused
    · rename_i m hm
      obtain ⟨st, hst, _⟩ := (hbefore.2 p.id).started m hm
      exact ⟨st, hst⟩
    · exact nomatch hrefused

/-- A machine that an event takes from `idle` to `running`. -/
def runnable : StateMachineDefinition where
  name := "job"
  states := (empty.set "idle" {}).set "running" {}
  transitions := [{ event := "go", «from» := ["idle"], «to» := some "running" }]
  initialState := "idle"

def startedAndSent : List StateMachineOp :=
  [.start 0 0 { id := "m", context := .null }, .create 0,
    .send 1 0 { id := "m", event := "go" } "lock-1", .load 1,
    .decide 1 (.ok true) (.returned .null),
    .commit 1 { «to» := "running", context := .null, metadata := .undefined } "event-1",
    .releaseLock 1]

theorem histories_are_chains_started_and_sent :
    ((stateMachineSystem fun _ => runnable).run (.new 0) startedAndSent).storage.eventsOf "m" ≠ [] ∧
      HistoriesAreChains (fun _ => runnable) 0 startedAndSent :=
  ⟨by decide, histories_are_chains (fun _ => runnable) 0 startedAndSent (by decide)⟩

/-- Two calls find no machine; the second stores its own over the first's, which has
    moved on. -/
def startedTwice : List StateMachineOp :=
  .start 2 0 { id := "m", context := .null } :: startedAndSent ++ [.create 2]

/-- The second `start` succeeds as well, and the saved transition is gone. -/
theorem started_twice_counterexample :
    (startsOf ((stateMachineSystem fun _ => runnable).outs (.new 0) startedTwice) "m").length = 2 ∧
      ((stateMachineSystem fun _ => runnable).run (.new 0) startedTwice).storage.eventsOf "m" =
        [] ∧
      ¬ HistoriesAreChains (fun _ => runnable) 0 startedTwice := by
  have hevents : ((stateMachineSystem fun _ => runnable).run (.new 0)
      startedTwice).storage.eventsOf "m" = [] := by decide
  have hcommits : commitsOf ((stateMachineSystem fun _ => runnable).outs (.new 0)
      startedTwice) "m" = 1 := by decide
  refine ⟨by decide, hevents, fun h => ?_⟩
  have hlength := (h.chain "m").commits
  rw [hevents, hcommits] at hlength
  exact nomatch hlength

end Promin.Durable

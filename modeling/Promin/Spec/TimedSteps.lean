import Promin.Durable.StateMachineTimers
import Promin.Spec.StateMachineChain

/-!
# What a step of the timed machines does

`TimedStep` says once what a step can do to the storage, the calls, their notes
and the timers; the timestamps of sends are left out.
-/

namespace Promin.Durable

open TimedMachines Function Machine StateMachineSystem

/-- The parts of a state, the timestamps of sends aside. -/
structure HasParts (s : TimedMachines) (storage : InMemoryStateMachineStorage)
    (calls : Nat → Option (Nat × MachineCall)) (timers : Nat → JsMap String MachineTimer)
    (notes : Nat → CallNotes) (evaluated : String → Bool) : Prop where
  storage : s.machines.storage = storage
  calls : s.machines.calls = calls
  timers : s.timers = timers
  notes : s.notes = notes
  evaluated : s.evaluated = evaluated

def evaluatedBy (request : MachineRequest) (evaluated : String → Bool) : String → Bool :=
  match request with
  | .send _ => evaluated
  | .timeout id _ => update evaluated id true

section

variable (defs : Nat → StateMachineDefinition) (auto : Nat → Bool)

inductive TimedStep (s : TimedMachines) : TimedOp → TimedMachines → Prop where
  | idle {o : TimedOp} {s' : TimedMachines}
      (h : HasParts s' s.machines.storage s.machines.calls s.timers s.notes s.evaluated) :
      TimedStep s o s'
  | advanced {ms : Nat} {s' : TimedMachines}
      (h : HasParts s' { s.machines.storage with now := s.now + ms } s.machines.calls s.timers
        s.notes s.evaluated) : TimedStep s (.advance ms) s'
  /-- A call ended before it held the lock, or never began. -/
  | dropped (c : Nat) (notes : CallNotes) {o : TimedOp} {s' : TimedMachines}
      (hfree : s.free c = true) (hnotes : notes.arming = none)
      (h : HasParts s' s.machines.storage s.machines.calls s.timers
        (update s.notes c notes) s.evaluated) : TimedStep s o s'
  | started {c i : Nat} {p : MachineStartParams} {s' : TimedMachines}
      (hfree : s.free c = true)
      (h : HasParts s' s.machines.storage
        (update s.machines.calls c (some (i, .starting p))) s.timers
        (update s.notes c {}) s.evaluated) : TimedStep s (.start c i p) s'
  | created {c i : Nat} {p : MachineStartParams} {s' : TimedMachines}
      (hcall : s.machines.calls c = some (i, .starting p))
      (h : HasParts s' (s.machines.storage.create (createParams (defs i) p))
        (update s.machines.calls c none) s.timers
        (update s.notes c { s.notes c with arming := some (i, p.id) })
        (update s.evaluated p.id false)) : TimedStep s (.create c) s'
  | armed {c i : Nat} {id : String} {s' : TimedMachines}
      (harming : (s.notes c).arming = some (i, id))
      (h : HasParts s' s.machines.storage s.machines.calls
        (scheduleTimeoutIfAny defs auto s i id (defs i).initialState none 0).timers
        (update s.notes c { s.notes c with arming := none }) s.evaluated) :
      TimedStep s (.armInitial c) s'
  | sendLocked {c i : Nat} {p : SendParams} {uuid token : String} {s' : TimedMachines}
      {storage : InMemoryStateMachineStorage} (hfree : s.free c = true)
      (hlock : s.machines.storage.tryLock p.id lockDurationMs uuid = (storage, some token))
      (h : HasParts s' storage
        (update s.machines.calls c (some (i, .locked (.send p) { token := token })))
        s.timers (update s.notes c {}) s.evaluated) : TimedStep s (.send c i p uuid) s'
  | noted {c i : Nat} {p : SendParams} {lock : HeldMachineLock} {s' : TimedMachines}
      (hcall : s.machines.calls c = some (i, .locked (.send p) lock))
      (h : HasParts s' s.machines.storage s.machines.calls s.timers
        (update s.notes c
          { s.notes c with noted := true, pending := (s.timers i).get p.id }) s.evaluated) :
      TimedStep s (.noteTimeout c) s'
  | fired {c i : Nat} {id : String} {timer : MachineTimer} {s' : TimedMachines}
      (hfree : s.free c = true) (htimer : (s.timers i).get id = some timer)
      (hdue : timer.dueAtMs ≤ s.now)
      (h : HasParts s' s.machines.storage
        (update s.machines.calls c (some (i, .due id timer.stateName)))
        (update s.timers i ((s.timers i).delete id))
        (update s.notes c { revision := timer.revision }) s.evaluated) :
      TimedStep s (.fire c i id) s'
  | dueFound {c i : Nat} {id : String} {m : MachineState} {cfg : TimeoutConfig}
      {s' : TimedMachines} (hfree : s.free c = true)
      (hload : s.machines.storage.load id = some m)
      (hcfg : (defs i).timeoutOf m.current = some cfg) (hdue : m.updatedAt + cfg.ms ≤ s.now)
      (h : HasParts s' s.machines.storage
        (update s.machines.calls c (some (i, .due id m.current))) s.timers
        (update s.notes c { revision := m.revision }) s.evaluated) :
      TimedStep s (.checkTimeouts c i id) s'
  | fireLocked {c i : Nat} {id fromState uuid token : String} {s' : TimedMachines}
      {storage : InMemoryStateMachineStorage}
      (hcall : s.machines.calls c = some (i, .due id fromState))
      (hlock : s.machines.storage.tryLock id lockDurationMs uuid = (storage, some token))
      (h : HasParts s' storage
        (update s.machines.calls c
          (some (i, .locked (.timeout id fromState) { token := token })))
        s.timers s.notes s.evaluated) : TimedStep s (.fireDue c uuid) s'
  | fireRefused {c i : Nat} {id fromState uuid : String} {s' : TimedMachines}
      (hcall : s.machines.calls c = some (i, .due id fromState))
      (hrefused : (defs i).timeoutOf fromState = none ∨
        ∃ lock, s.machines.storage.locks.get id = some lock ∧ lock.expiresAt > s.now)
      (h : HasParts s' s.machines.storage (update s.machines.calls c none) s.timers
        (s.markRefused id).notes s.evaluated) : TimedStep s (.fireDue c uuid) s'
  | sendFailed {c i : Nat} {p : SendParams} {lock : HeldMachineLock} {fromState : Option String}
      {s' : TimedMachines} (hcall : s.machines.calls c = some (i, .locked (.send p) lock))
      (hfrom : ∀ stateName, fromState = some stateName →
        ∃ m, s.machines.storage.load p.id = some m ∧ m.current = stateName)
      (h : HasParts s' s.machines.storage
        (update s.machines.calls c (some (i, .ending (.send p) lock))) s.timers
        (update s.notes c { s.notes c with fromState := fromState }) s.evaluated) :
      TimedStep s (.load c) s'
  | sendLoaded {c i : Nat} {p : SendParams} {lock : HeldMachineLock} {m : MachineState}
      {s' : TimedMachines} (hcall : s.machines.calls c = some (i, .locked (.send p) lock))
      (hload : s.machines.storage.load p.id = some m)
      (h : HasParts s' s.machines.storage
        (update s.machines.calls c (some (i, .loaded (.send p) lock m))) s.timers
        (update s.notes c { s.notes c with fromState := some m.current }) s.evaluated) :
      TimedStep s (.load c) s'
  | fireBailed {c i : Nat} {id fromState : String} {lock : HeldMachineLock} {s' : TimedMachines}
      (hcall : s.machines.calls c = some (i, .locked (.timeout id fromState) lock))
      (hmoved : ∀ m, s.machines.storage.load id = some m → m.current ≠ fromState)
      (h : HasParts s' s.machines.storage
        (update s.machines.calls c (some (i, .ending (.timeout id fromState) lock)))
        s.timers s.notes s.evaluated) : TimedStep s (.load c) s'
  | fireLoaded {c i : Nat} {id fromState : String} {lock : HeldMachineLock} {m : MachineState}
      {s' : TimedMachines}
      (hcall : s.machines.calls c = some (i, .locked (.timeout id fromState) lock))
      (hload : s.machines.storage.load id = some m) (hcurrent : m.current = fromState)
      (h : HasParts s' s.machines.storage
        (update s.machines.calls c (some (i, .loaded (.timeout id fromState) lock m)))
        s.timers s.notes s.evaluated) : TimedStep s (.load c) s'
  | decideFailed {c i : Nat} {request : MachineRequest} {lock : HeldMachineLock}
      {m : MachineState} {guard : Except String Bool} {action : ActionResult} {s' : TimedMachines}
      (hcall : s.machines.calls c = some (i, .loaded request lock m))
      (h : HasParts s' s.machines.storage
        (update s.machines.calls c (some (i, .ending request lock))) s.timers s.notes
        (evaluatedBy request s.evaluated)) : TimedStep s (.decide c guard action) s'
  | decided {c i : Nat} {request : MachineRequest} {lock : HeldMachineLock} {m : MachineState}
      {tx : TransitionContext} {guard : Except String Bool} {action : ActionResult}
      {s' : TimedMachines} (hcall : s.machines.calls c = some (i, .loaded request lock m))
      (htx : decideRequest (defs i) request m guard action = .ok tx)
      (h : HasParts s' s.machines.storage
        (update s.machines.calls c (some (i, .decided request lock m tx false))) s.timers
        s.notes (evaluatedBy request s.evaluated)) : TimedStep s (.decide c guard action) s'
  | committed {c i : Nat} {request : MachineRequest} {lock : HeldMachineLock} {m : MachineState}
      {tx tx' : TransitionContext} {rewrite : MiddlewareRewrite} {uuid : String}
      {storage : InMemoryStateMachineStorage} {s' : TimedMachines}
      (hcall : s.machines.calls c = some (i, .decided request lock m tx false))
      (htx : tx' = rewritten (defs i) request tx rewrite)
      (hsaved : s.machines.storage.transition
        (transitionParams m tx') uuid = (storage, .ok ()))
      (h : HasParts s' storage
        (update s.machines.calls c (some (i, .decided request lock m tx' true))) s.timers
        s.notes (update s.evaluated request.id false)) :
      TimedStep s (.commit c rewrite uuid) s'
  | beat {c i : Nat} {id : String} {call call' : MachineCall} {lock : HeldMachineLock}
      {s' : TimedMachines} (hcall : s.machines.calls c = some (i, call))
      (hlock : lockOf call = some (id, lock))
      (hopen : (s.notes c).settled = false)
      (hlost : call' = call ∨ call' = losing call)
      (h : HasParts s' (s.machines.storage.extendLock id lock.token lockDurationMs).1
        (update s.machines.calls c (some (i, call'))) s.timers s.notes s.evaluated) :
      TimedStep s (.heartbeat c) s'
  | settled {c i : Nat} {request : MachineRequest} {call : MachineCall} {lock : HeldMachineLock}
      {s' : TimedMachines} (hcall : s.machines.calls c = some (i, call))
      (hended : endedRequest call = some request)
      (hlock : lockOf call = some (request.id, lock))
      (hopen : (s.notes c).settled = false)
      (h : HasParts s' (s.machines.storage.releaseLock request.id lock.token) s.machines.calls
        (settleTimeout defs auto s c i request call).timers
        (update s.notes c { s.notes c with settled := true }) s.evaluated) :
      TimedStep s (.settle c) s'
  | cancelled {i : Nat} {s' : TimedMachines}
      (h : HasParts s' s.machines.storage s.machines.calls
        (update s.timers i JsMap.empty) s.notes s.evaluated) :
      TimedStep s (.cancelAllTimeouts i) s'

end

section

variable {defs : Nat → StateMachineDefinition} {auto : Nat → Bool} {s : TimedMachines}

theorem hasParts_self (s : TimedMachines) :
    HasParts s s.machines.storage s.machines.calls s.timers s.notes s.evaluated :=
  ⟨rfl, rfl, rfl, rfl, rfl⟩

theorem schedule_parts (defs : Nat → StateMachineDefinition) (auto : Nat → Bool)
    (s : TimedMachines) (i : Nat) (id stateName : String) (delayMs : Option Int) (revision : Nat) :
    HasParts (scheduleTimeoutIfAny defs auto s i id stateName delayMs revision)
      s.machines.storage s.machines.calls
      (scheduleTimeoutIfAny defs auto s i id stateName delayMs revision).timers s.notes
      s.evaluated := by
  unfold scheduleTimeoutIfAny
  split
  · split <;> exact ⟨rfl, rfl, rfl, rfl, rfl⟩
  · exact ⟨rfl, rfl, rfl, rfl, rfl⟩

theorem schedule_timers (defs : Nat → StateMachineDefinition) (auto : Nat → Bool)
    (s₁ s₂ : TimedMachines) (htimers : s₁.timers = s₂.timers) (hnow : s₁.now = s₂.now) (i : Nat)
    (id stateName : String) (delayMs : Option Int) (revision : Nat) :
    (scheduleTimeoutIfAny defs auto s₁ i id stateName delayMs revision).timers =
      (scheduleTimeoutIfAny defs auto s₂ i id stateName delayMs revision).timers := by
  unfold scheduleTimeoutIfAny
  split
  · split
    · exact htimers
    · have hcancel : (s₁.cancelTimeout i id).timers = (s₂.cancelTimeout i id).timers := by
        unfold cancelTimeout
        rw [htimers]
      have hclock : (s₁.cancelTimeout i id).now = (s₂.cancelTimeout i id).now := hnow
      simp only [hcancel, hclock]
  · exact htimers

theorem settleTimeout_parts (defs : Nat → StateMachineDefinition) (auto : Nat → Bool)
    (s : TimedMachines) (c i : Nat) (request : MachineRequest) (call : MachineCall) :
    HasParts (settleTimeout defs auto s c i request call) s.machines.storage s.machines.calls
      (settleTimeout defs auto s c i request call).timers s.notes s.evaluated := by
  unfold settleTimeout
  split
  · obtain ⟨hstorage, hcalls, -, hnotes, hevaluated⟩ :=
      schedule_parts defs auto (s.cancelTimeout i request.id) i request.id
        _ none _
    exact ⟨hstorage, hcalls, rfl, hnotes, hevaluated⟩
  · split
    · unfold settleUncommitted
      split
      · split
        · exact hasParts_self s
        · exact schedule_parts defs auto s i _ _ _ _
      · exact hasParts_self s
    · exact hasParts_self s

variable {id : String} {timer : MachineTimer}

theorem schedule_get (defs : Nat → StateMachineDefinition) (auto : Nat → Bool)
    (s : TimedMachines) {i j : Nat} {id' stateName : String} {delayMs : Option Int} {revision : Nat}
    (h : ((scheduleTimeoutIfAny defs auto s i id stateName delayMs revision).timers j).get id' =
      some timer) :
    (s.timers j).get id' = some timer ∨ j = i ∧ id' = id ∧
      ∃ cfg, (defs i).timeoutOf stateName = some cfg ∧ timer =
        { stateName := stateName, dueAtMs := s.now + delayMs.getD cfg.ms,
          revision := revision } := by
  unfold scheduleTimeoutIfAny at h
  split at h
  · split at h
    · exact .inl h
    · rename_i cfg hcfg
      by_cases hj : j = i
      · subst hj
        by_cases hid : id = id'
        · subst hid
          simp only [update_self, JsMap.get_set_self] at h
          exact .inr ⟨rfl, rfl, cfg, hcfg, (Option.some.inj h).symm⟩
        · simp only [cancelTimeout, update_self, JsMap.get_set_ne _ _ hid,
            JsMap.get_delete_ne _ hid] at h
          exact .inl h
      · simp only [cancelTimeout, update_of_ne hj] at h
        exact .inl h
  · exact .inl h

theorem cancel_get {i j : Nat} {id' : String}
    (h : ((s.cancelTimeout i id).timers j).get id' = some timer) :
    (s.timers j).get id' = some timer := by
  simp only [cancelTimeout] at h
  by_cases hj : j = i
  · subst hj
    rw [update_self, JsMap.get_delete] at h
    split at h
    · cases h
    · exact h
  · rwa [update_of_ne hj] at h

theorem settleTimeout_get (defs : Nat → StateMachineDefinition) (auto : Nat → Bool)
    (s : TimedMachines) {c i j : Nat} {request : MachineRequest} {call : MachineCall}
    (h : ((settleTimeout defs auto s c i request call).timers j).get id = some timer) :
    (s.timers j).get id = some timer ∨ j = i ∧ id = request.id ∧
      ((∃ cfg, committedTo call = some (timer.stateName, timer.revision) ∧
          (defs i).timeoutOf timer.stateName = some cfg ∧ timer.dueAtMs = s.now + cfg.ms) ∨
        ∃ p noted, request = .send p ∧ (s.notes c).pending = some noted ∧
          (s.notes c).fromState = some timer.stateName ∧ timer.revision = noted.revision ∧
          noted.dueAtMs ≤ timer.dueAtMs) := by
  unfold settleTimeout at h
  split at h
  · rename_i stateName revision hcommitted
    rcases schedule_get defs auto _ h with h | ⟨hj, hid, cfg, hcfg, rfl⟩
    · exact .inl (cancel_get h)
    · exact .inr ⟨hj, hid, .inl ⟨cfg, hcommitted, hcfg, rfl⟩⟩
  · split at h
    · rename_i p
      unfold settleUncommitted at h
      split at h
      · rename_i stateName noted hfrom hpending
        split at h
        · exact .inl h
        · rcases schedule_get defs auto _ h with h | ⟨hj, hid, cfg, hcfg, rfl⟩
          · exact .inl h
          · refine .inr ⟨hj, hid, .inr ⟨p, noted, rfl, hpending, hfrom, rfl, ?_⟩⟩
            show noted.dueAtMs ≤ s.now + max 0 (noted.dueAtMs - s.now)
            omega
      · exact .inl h
    · exact .inl h

private theorem tryLock_cases (storage : InMemoryStateMachineStorage) (id uuid : String) :
    (∃ storage' token, storage.tryLock id lockDurationMs uuid = (storage', some token)) ∨
      storage.tryLock id lockDurationMs uuid = (storage, none) ∧
        ∃ lock, storage.locks.get id = some lock ∧ lock.expiresAt > storage.now := by
  unfold InMemoryStateMachineStorage.tryLock
  cases hget : storage.locks.get id with
  | none => exact .inl ⟨_, _, rfl⟩
  | some lock =>
    by_cases hheld : lock.expiresAt > storage.now
    · exact .inr ⟨if_pos hheld, lock, rfl, hheld⟩
    · exact .inl ⟨_, _, if_neg hheld⟩

theorem free_calls {c : Nat} (h : s.free c = true) : s.machines.calls c = none :=
  Option.isNone_iff_eq_none.mp (Bool.and_eq_true _ _ ▸ h).1

private theorem send_timed (c i : Nat) (p : SendParams) (uuid : String) :
    TimedStep defs auto s (.send c i p uuid)
      ((timedMachines defs auto).next s (.send c i p uuid)) := by
  simp only [next, timedMachines]
  split
  · rename_i hfree
    have hnone := free_calls hfree
    rcases tryLock_cases s.machines.storage p.id uuid with ⟨storage, token, hlock⟩ | ⟨hlock, -⟩
    · refine .sendLocked hfree hlock ?_
      simp only [acquireLock, MachineRequest.id, hlock]
      exact ⟨rfl, rfl, rfl, rfl, rfl⟩
    · refine .dropped c {} hfree rfl ?_
      simp only [acquireLock, MachineRequest.id, hlock]
      refine ⟨rfl, ?_, rfl, rfl, rfl⟩
      show update s.machines.calls c none = _
      rw [← hnone, update_eq_self]
  · exact .idle (hasParts_self s)

private theorem start_timed (c i : Nat) (p : MachineStartParams) :
    TimedStep defs auto s (.start c i p) ((timedMachines defs auto).next s (.start c i p)) := by
  simp only [next, timedMachines]
  split
  · rename_i hfree
    have hnone := free_calls hfree
    unfold start
    split
    · refine .dropped c {} hfree rfl ⟨rfl, ?_, rfl, rfl, rfl⟩
      show update s.machines.calls c none = _
      rw [← hnone, update_eq_self]
    · exact .started hfree ⟨rfl, rfl, rfl, rfl, rfl⟩
  · exact .idle (hasParts_self s)

variable (c : Nat)

private theorem create_timed :
    TimedStep defs auto s (.create c) ((timedMachines defs auto).next s (.create c)) := by
  simp only [next, timedMachines, TimedMachines.create]
  split
  · rename_i i p hcall
    refine .created hcall ?_
    simp only [StateMachineSystem.create, hcall]
    exact ⟨rfl, rfl, rfl, rfl, rfl⟩
  · exact .idle (hasParts_self s)

private theorem armInitial_timed :
    TimedStep defs auto s (.armInitial c) ((timedMachines defs auto).next s (.armInitial c)) := by
  simp only [next, timedMachines, TimedMachines.armInitial]
  split
  · exact .idle (hasParts_self s)
  · rename_i i id harming
    obtain ⟨hstorage, hcalls, -, hnotes, hevaluated⟩ :=
      schedule_parts defs auto (s.setNotes c { s.notes c with arming := none }) i id
        (defs i).initialState none 0
    have htimers := schedule_timers defs auto (s.setNotes c { s.notes c with arming := none }) s
      rfl rfl i id (defs i).initialState none 0
    exact .armed harming ⟨hstorage, hcalls, htimers, hnotes, hevaluated⟩

private theorem noteTimeout_timed :
    TimedStep defs auto s (.noteTimeout c) ((timedMachines defs auto).next s (.noteTimeout c)) := by
  simp only [next, timedMachines, TimedMachines.noteTimeout]
  split
  · rename_i i p lock hcall
    split
    · exact .idle (hasParts_self s)
    · exact .noted hcall ⟨rfl, rfl, rfl, rfl, rfl⟩
  · exact .idle (hasParts_self s)

private theorem fire_timed (c i : Nat) (id : String) :
    TimedStep defs auto s (.fire c i id) ((timedMachines defs auto).next s (.fire c i id)) := by
  simp only [next, timedMachines, TimedMachines.fire]
  split
  · exact .idle (hasParts_self s)
  · rename_i timer htimer
    split
    · rename_i hready
      simp only [Bool.and_eq_true, decide_eq_true_eq] at hready
      exact .fired hready.1 htimer hready.2 ⟨rfl, rfl, rfl, rfl, rfl⟩
    · exact .idle (hasParts_self s)

private theorem checkTimeouts_timed (c i : Nat) (id : String) :
    TimedStep defs auto s (.checkTimeouts c i id)
      ((timedMachines defs auto).next s (.checkTimeouts c i id)) := by
  simp only [next, timedMachines]
  split
  · rename_i hfree
    have hnone := free_calls hfree
    have hdropped : ∀ {revision : Nat},
        TimedStep defs auto s (.checkTimeouts c i id)
          ({ s with machines := s.machines.done c }.setNotes c { revision := revision }) := by
      intro revision
      refine .dropped c { revision := revision } hfree rfl ⟨rfl, ?_, rfl, rfl, rfl⟩
      show update s.machines.calls c none = _
      rw [← hnone, update_eq_self]
    unfold checkTimeouts
    cases hload : s.machines.storage.load id with
    | none => exact hdropped
    | some m =>
      simp only
      cases hcfg : (defs i).timeoutOf m.current with
      | none => exact hdropped
      | some cfg =>
        simp only
        split
        · exact hdropped
        · rename_i hdue
          exact .dueFound hfree hload hcfg (not_lt.mp hdue) ⟨rfl, rfl, rfl, rfl, rfl⟩
  · exact .idle (hasParts_self s)

private theorem fireDue_timed (uuid : String) :
    TimedStep defs auto s (.fireDue c uuid)
      ((timedMachines defs auto).next s (.fireDue c uuid)) := by
  simp only [next, timedMachines, TimedMachines.fireDue]
  split
  · rename_i i id fromState hcall
    simp only [StateMachineSystem.fireDue, hcall, StateMachineSystem.fireTimeout]
    cases hcfg : (defs i).timeoutOf fromState with
    | none =>
      simp only [done, update_self, Option.isSome_none,
        Bool.false_eq_true, ↓reduceIte]
      exact .fireRefused hcall (.inl hcfg) ⟨rfl, rfl, rfl, rfl, rfl⟩
    | some cfg =>
      rcases tryLock_cases s.machines.storage id uuid with ⟨storage, token, hlock⟩ |
        ⟨hlock, hheld⟩
      · simp only [acquireLock, MachineRequest.id, hlock,
          toPhase, update_self, Option.isSome_some, ↓reduceIte]
        exact .fireLocked hcall hlock ⟨rfl, rfl, rfl, rfl, rfl⟩
      · simp only [acquireLock, MachineRequest.id, hlock,
          done, update_self, Option.isSome_none, Bool.false_eq_true,
          ↓reduceIte]
        exact .fireRefused hcall (.inr hheld) ⟨rfl, rfl, rfl, rfl, rfl⟩
  · exact .idle (hasParts_self s)

private theorem sendLoad_parts {c i : Nat} {p : SendParams} {lock : HeldMachineLock}
    (hcall : s.machines.calls c = some (i, .locked (.send p) lock)) :
    (s.machines.load defs c).1.storage = s.machines.storage ∧
      ((s.machines.load defs c).1.calls =
          update s.machines.calls c (some (i, .ending (.send p) lock)) ∨
        ∃ m, s.machines.storage.load p.id = some m ∧
          checkedState s.machines (defs i) i p = some m.current ∧
          (s.machines.load defs c).1.calls =
            update s.machines.calls c (some (i, .loaded (.send p) lock m))) := by
  unfold StateMachineSystem.load checkedState
  simp only [hcall, MachineRequest.id]
  cases hload : s.machines.storage.load p.id with
  | none => exact ⟨rfl, .inl rfl⟩
  | some m =>
    simp only
    cases hcheck : (defs i).checkMachine p.id m with
    | error message => exact ⟨rfl, .inl rfl⟩
    | ok _ =>
      obtain ⟨hstorage, hcalls⟩ := withinRate_frame s.machines (defs i) i p.id
      simp only
      cases hrate : s.machines.withinRate (defs i) i p.id with
      | mk machines' within =>
        rw [hrate] at hstorage hcalls
        cases within with
        | error message =>
          exact ⟨hstorage, .inl (congrArg (update · c _) hcalls)⟩
        | ok _ =>
          simp only
          cases (defs i).findTransition p.event m.current with
          | none => exact ⟨hstorage, .inl (congrArg (update · c _) hcalls)⟩
          | some t =>
            exact ⟨hstorage, .inr ⟨m, rfl, rfl, congrArg (update · c _) hcalls⟩⟩

private theorem checkedState_some {machines : StateMachineSystem} {d : StateMachineDefinition}
    {i : Nat} {p : SendParams} {stateName : String}
    (h : checkedState machines d i p = some stateName) :
    ∃ m, machines.storage.load p.id = some m ∧ m.current = stateName := by
  unfold checkedState at h
  split at h
  · exact nomatch h
  · rename_i m hload
    split at h
    · exact ⟨m, hload, Option.some.inj h⟩
    · exact nomatch h

private theorem load_timed :
    TimedStep defs auto s (.load c) ((timedMachines defs auto).next s (.load c)) := by
  simp only [next, timedMachines, TimedMachines.load]
  split
  · rename_i i id fromState lock hcall
    simp only [StateMachineSystem.load, hcall, MachineRequest.id]
    cases hload : s.machines.storage.load id with
    | none =>
      exact .fireBailed hcall (fun m hm => by cases hload.symm.trans hm)
        ⟨rfl, rfl, rfl, rfl, rfl⟩
    | some m =>
      simp only
      by_cases hcurrent : m.current = fromState
      · simp only [hcurrent, ne_eq, not_true_eq_false, ↓reduceIte]
        exact .fireLoaded hcall hload hcurrent ⟨rfl, rfl, rfl, rfl, rfl⟩
      · simp only [hcurrent, ne_eq, not_false_eq_true, ↓reduceIte]
        have hmoved : ∀ m', s.machines.storage.load id = some m' → m'.current ≠ fromState := by
          intro m' hm'
          rwa [← Option.some.inj (hload.symm.trans hm')]
        exact .fireBailed hcall hmoved ⟨rfl, rfl, rfl, rfl, rfl⟩
  · rename_i i p lock hcall
    split
    · obtain ⟨hstorage, hcalls | ⟨m, hload, hchecked, hcalls⟩⟩ := sendLoad_parts hcall
      · exact .sendFailed hcall (fun _ => checkedState_some) ⟨hstorage, hcalls, rfl, rfl, rfl⟩
      · rw [hchecked]
        exact .sendLoaded hcall hload ⟨hstorage, hcalls, rfl, rfl, rfl⟩
    · exact .idle (hasParts_self s)
  · exact .idle (hasParts_self s)

private theorem decide_timed (guard : Except String Bool) (action : ActionResult) :
    TimedStep defs auto s (.decide c guard action)
      ((timedMachines defs auto).next s (.decide c guard action)) := by
  simp only [next, timedMachines, TimedMachines.decide, StateMachineSystem.decide]
  cases hcall : s.machines.calls c with
  | none => exact .idle (hasParts_self s)
  | some call =>
    obtain ⟨i, call⟩ := call
    cases call with
    | loaded request lock m =>
      simp only
      cases htx : StateMachineSystem.decideRequest (defs i) request m guard action with
      | error answer => exact .decideFailed hcall ⟨rfl, rfl, rfl, rfl, by cases request <;> rfl⟩
      | ok tx => exact .decided hcall htx ⟨rfl, rfl, rfl, rfl, by cases request <;> rfl⟩
    | starting _ | due _ _ | locked _ _ | decided _ _ _ _ _ | ending _ _ =>
      exact .idle (hasParts_self s)

private theorem commit_timed (rewrite : MiddlewareRewrite) (uuid : String) :
    TimedStep defs auto s (.commit c rewrite uuid)
      ((timedMachines defs auto).next s (.commit c rewrite uuid)) := by
  simp only [next, timedMachines, TimedMachines.commit, StateMachineSystem.commit]
  split
  · rename_i i request lock m tx hcall
    split
    · exact .idle (hasParts_self s)
    · split
      · exact .idle (hasParts_self s)
      · rename_i storage hsaved
        exact .committed hcall rfl hsaved ⟨rfl, rfl, rfl, rfl, rfl⟩
  · exact .idle (hasParts_self s)

private theorem heartbeat_timed :
    TimedStep defs auto s (.heartbeat c) ((timedMachines defs auto).next s (.heartbeat c)) := by
  simp only [next, timedMachines]
  split
  · exact .idle (hasParts_self s)
  · rename_i hopen
    have hopen : (s.notes c).settled = false := Bool.eq_false_iff.mpr hopen
    unfold heartbeat
    split
    · exact .idle (hasParts_self s)
    · rename_i i call hcall
      split
      · exact .idle (hasParts_self s)
      · rename_i id lock hlock
        split
        · rename_i storage hextended
          refine .beat hcall hlock hopen (.inl rfl) ⟨?_, ?_, rfl, rfl, rfl⟩
          · rw [hextended]
          · rw [← hcall, update_eq_self]
        · rename_i storage hextended
          refine .beat hcall hlock hopen (.inr rfl) ⟨?_, rfl, rfl, rfl, rfl⟩
          rw [hextended]
          rfl

private theorem lockOf_ended {call : MachineCall} {request : MachineRequest}
    (h : endedRequest call = some request) :
    ∃ lock, lockOf call = some (request.id, lock) := by
  cases call with
  | decided request' lock m tx committed | ending request' lock =>
    cases h
    exact ⟨lock, rfl⟩
  | starting _ | due _ _ | locked _ _ | loaded _ _ _ => exact nomatch h

private theorem settle_timed :
    TimedStep defs auto s (.settle c) ((timedMachines defs auto).next s (.settle c)) := by
  simp only [next, timedMachines, TimedMachines.settle]
  split
  · exact .idle (hasParts_self s)
  · rename_i i call hcall
    split
    · exact .idle (hasParts_self s)
    · rename_i request hended
      split
      · exact .idle (hasParts_self s)
      · rename_i hopen
        obtain ⟨lock, hlock⟩ := lockOf_ended hended
        obtain ⟨hstorage, hcalls, -, hnotes, hevaluated⟩ :=
          settleTimeout_parts defs auto s c i request call
        refine .settled hcall hended hlock (Bool.eq_false_iff.mpr hopen) ?_
        simp only [releaseLock, hcalls, hcall, hlock]
        refine ⟨?_, ?_, rfl, ?_, hevaluated⟩
        · exact congrArg (·.releaseLock request.id lock.token) hstorage
        · rfl
        · exact congrArg (fun notes => update notes c { notes c with settled := true })
            hnotes

theorem step_timed (defs : Nat → StateMachineDefinition) (auto : Nat → Bool) (s : TimedMachines)
    (o : TimedOp) : TimedStep defs auto s o ((timedMachines defs auto).next s o) := by
  cases o with
  | advance ms => exact .advanced ⟨rfl, rfl, rfl, rfl, rfl⟩
  | start c i p => exact start_timed c i p
  | create c => exact create_timed c
  | armInitial c => exact armInitial_timed c
  | send c i p uuid => exact send_timed c i p uuid
  | noteTimeout c => exact noteTimeout_timed c
  | fire c i id => exact fire_timed c i id
  | checkTimeouts c i id => exact checkTimeouts_timed c i id
  | fireDue c uuid => exact fireDue_timed c uuid
  | load c => exact load_timed c
  | decide c guard action => exact decide_timed c guard action
  | commit c rewrite uuid => exact commit_timed c rewrite uuid
  | heartbeat c => exact heartbeat_timed c
  | settle c => exact settle_timed c
  | cancelAllTimeouts i => exact .cancelled ⟨rfl, rfl, rfl, rfl, rfl⟩

end

end Promin.Durable

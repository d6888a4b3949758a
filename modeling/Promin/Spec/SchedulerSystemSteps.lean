import Promin.Scheduler.SchedulerSystem
import Promin.Spec.TickLog

/-!
# The storage call of a system operation

Every operation of the scheduler system makes at most one call on the storage, and moves
only the stream or the call it is about.
-/

namespace Promin.Scheduler

open InMemorySchedulerStorage SchedulerSystem

variable (d : Deployment)

/-- The lease a stopping stream gives up: its instance's, if no other stream runs. -/
def releasedLease (s : SchedulerSystem) (i : Nat) : Option LeaderLease :=
  let inst := s.instances (d.instanceOf i)
  if inst.activeStreams - 1 = 0 then inst.heldLease else none

def streamCall (s : SchedulerSystem) (i : Nat) (o : StreamOp) : Option SchedulerStorageOp :=
  match o, s.streams i with
  | .tryAcquireLeader, .polling =>
    let config := d.config (d.instanceOf i)
    some (.tryAcquireLeader (schedulerLeaderKey config.namespace config.partition)
      config.instanceId config.leaderLockTtlMs)
  | .commit fails, .committing batch acked _ =>
    let ready := readyPlans acked 0 batch.plans
    if ready.isEmpty || fails then none
    else some (.commitPoll (ready.map (·.commit)) (some batch.lease))
  | .disable, .disabling (id :: _) _ => some (.setEnabled id false)
  | .release, .releasing => (releasedLease d s i).map .releaseLeader
  | _, _ => none

def firedTicks (s : SchedulerSystem) (scheduleId : String) (fire : ManualFire)
    (config : DurableScheduleConfig) (state : ScheduleState) : List ScheduleTick :=
  match fire.occurrences d.calendar config s.storage.now with
  | .ok occurrences => manualTicks scheduleId config state s.storage.now occurrences
  | .error _ => []

def manualCall (s : SchedulerSystem) (i : Nat) (o : ManualOp) : Option SchedulerStorageOp :=
  match o, s.manual i with
  | .commit fails, some (.loaded scheduleId fire _ config state) =>
    let ticks := firedTicks d s scheduleId fire config state
    if ticks.isEmpty || fails then none
    else some (.commitPoll [manualCommit scheduleId state s.storage.now ticks] none)
  | _, _ => none

def adminCall (s : SchedulerSystem) (i : Nat) (o : AdminOp) : Option SchedulerStorageOp :=
  match o, s.admin i with
  | .register instance_ config token, none =>
    match validateScheduleConfig d.calendar config with
    | .error _ => none
    | .ok () =>
      let ns := config.namespace <|> (d.config instance_).namespace
      some (.upsertSchedule { config with «namespace» := ns } token)
  | .seed, some (.registered scheduleId) => some (.setNextRun scheduleId (some s.storage.now))
  | .store token, some (.merged config) => some (.upsertSchedule config token)
  | .recompute, some (.updated config) =>
    match computeNextRun d.calendar config s.storage.now with
    | .error _ => none
    | .ok nextRun => some (.setNextRun config.id nextRun)
  | .pause scheduleId, none => some (.setEnabled scheduleId false)
  | .resume scheduleId, none => some (.setEnabled scheduleId true)
  | .unregister scheduleId, none => some (.deleteSchedule scheduleId)
  | _, _ => none

def storageCall (s : SchedulerSystem) : SchedulerOp → Option SchedulerStorageOp
  | .advance ms => some (.advance ms)
  | .stream i o => streamCall d s i o
  | .manual i o => manualCall d s i o
  | .admin i o => adminCall d s i o

def afterCall (s : InMemorySchedulerStorage) : Option SchedulerStorageOp →
    InMemorySchedulerStorage
  | none => s
  | some call => schedulerStorage.next s call

variable {d} (s : SchedulerSystem) (i : Nat)

theorem commitBatch_storage (batch : PollBatch) (acked : Nat) (stopping fails : Bool) :
    (s.commitBatch i batch acked stopping fails).storage =
      if (readyPlans acked 0 batch.plans).isEmpty || fails then s.storage
      else (s.storage.commitPoll ((readyPlans acked 0 batch.plans).map (·.commit))
        (some batch.lease)).1 := by
  simp only [commitBatch]
  split
  · rfl
  · obtain ⟨l, e, -, -, heq⟩ | ⟨-, heq⟩ := commitPoll_cases s.storage
      ((readyPlans acked 0 batch.plans).map (·.commit)) (some batch.lease)
    · rw [heq]
      rfl
    · rw [heq]

theorem firedTicks_isEmpty {s : SchedulerSystem} {scheduleId : String} {fire : ManualFire}
    {config : DurableScheduleConfig} {state : ScheduleState} {occurrences : List Int}
    (h : fire.occurrences d.calendar config s.storage.now = .ok occurrences) :
    (firedTicks d s scheduleId fire config state).isEmpty = occurrences.isEmpty := by
  simp only [firedTicks, h, manualTicks]
  cases occurrences with
  | nil => rfl
  | cons o rest => rfl

theorem streamStep_storage (o : StreamOp) :
    (s.streamStep d i o).1.storage = afterCall s.storage (streamCall d s i o) := by
  simp only [streamStep, streamCall]
  split
  · rfl
  · rename_i hphase
    simp only [hphase]
    rfl
  · rfl
  · rfl
  · rfl
  · rename_i hphase
    simp only [pollPlan]
    split <;> rfl
  · simp only [nextTick]
    split <;> rfl
  · rename_i hphase
    simp only [hphase, commitBatch_storage]
    split <;> rfl
  · rename_i hphase
    simp only [hphase]
    rfl
  · simp only [stopStream]
    split <;> rfl
  · rename_i hphase
    simp only [hphase, releaseStream, releasedLease]
    split <;> rename_i hlease <;> simp only [hlease] <;> rfl
  · -- the stream is not ready for the step, so it makes no call either
    split <;> first | rfl | grind

theorem manualStep_storage (o : ManualOp) :
    (s.manualStep d i o).1.storage = afterCall s.storage (manualCall d s i o) := by
  simp only [manualStep, manualCall]
  split
  · rfl
  · rfl
  · rfl
  · rename_i fails scheduleId fire attempt config state hcall
    simp only [hcall, fireCommit]
    cases hocc : fire.occurrences d.calendar config s.storage.now with
    | error e =>
      have hnone : firedTicks d s scheduleId fire config state = [] := by simp [firedTicks, hocc]
      simp [hnone, afterCall, toManual]
    | ok occurrences =>
      have hticks : firedTicks d s scheduleId fire config state =
          manualTicks scheduleId config state s.storage.now occurrences := by
        simp [firedTicks, hocc]
      have hempty : (firedTicks d s scheduleId fire config state).isEmpty = occurrences.isEmpty :=
        firedTicks_isEmpty hocc
      simp only [hempty]
      by_cases hnone : occurrences.isEmpty
      · simp [hnone, afterCall, toManual]
      · by_cases hfails : fails
        · simp [hnone, hfails, afterCall, toManual]
        · simp only [hnone, hfails, Bool.false_eq_true, ↓reduceIte, Bool.or_self, hticks]
          split
          · rfl
          · split <;> rfl
          · rfl
  · split <;> first | rfl | grind

theorem adminStep_storage (o : AdminOp) :
    (s.adminStep d i o).storage = afterCall s.storage (adminCall d s i o) := by
  simp only [adminStep, adminCall]
  split
  · rename_i instance_ config token hcall
    simp only [hcall, register]
    cases validateScheduleConfig d.calendar config with
    | error e => rfl
    | ok u => rfl
  · rename_i hcall
    simp only [hcall]
    rfl
  · simp only [loadUpdate]
    split
    · rfl
    · split <;> rfl
  · rename_i hcall
    simp only [hcall]
    rfl
  · rename_i config hcall
    simp only [hcall]
    cases computeNextRun d.calendar config s.storage.now with
    | error e => rfl
    | ok nextRun => rfl
  · rename_i hcall
    simp only [hcall]
    rfl
  · rename_i hcall
    simp only [hcall]
    rfl
  · rename_i hcall
    simp only [hcall]
    rfl
  · split <;> first | rfl | grind

theorem next_storage (o : SchedulerOp) :
    ((schedulerSystem d).next s o).storage = afterCall s.storage (storageCall d s o) := by
  cases o with
  | advance ms => rfl
  | stream i o => exact streamStep_storage s i o
  | manual i o => exact manualStep_storage s i o
  | admin i o => exact adminStep_storage s i o

/-! ## What an operation leaves alone -/

theorem streamStep_frame (o : StreamOp) :
    (s.streamStep d i o).1.manual = s.manual ∧ (s.streamStep d i o).1.admin = s.admin ∧
      ∀ j, j ≠ i → (s.streamStep d i o).1.streams j = s.streams j := by
  simp only [streamStep]
  split
  · exact ⟨rfl, rfl, fun j hj => setAt_ne _ _ hj⟩
  · exact ⟨rfl, rfl, fun j hj => setAt_ne _ _ hj⟩
  · exact ⟨rfl, rfl, fun j hj => setAt_ne _ _ hj⟩
  · exact ⟨rfl, rfl, fun j hj => setAt_ne _ _ hj⟩
  · exact ⟨rfl, rfl, fun j hj => setAt_ne _ _ hj⟩
  · simp only [pollPlan]
    split <;> exact ⟨rfl, rfl, fun j hj => setAt_ne _ _ hj⟩
  · simp only [nextTick]
    split <;> exact ⟨rfl, rfl, fun j hj => setAt_ne _ _ hj⟩
  · simp only [commitBatch]
    split
    · exact ⟨rfl, rfl, fun j hj => setAt_ne _ _ hj⟩
    · split <;> exact ⟨rfl, rfl, fun j hj => setAt_ne _ _ hj⟩
  · exact ⟨rfl, rfl, fun j hj => setAt_ne _ _ hj⟩
  · simp only [stopStream]
    split <;> first
      | exact ⟨rfl, rfl, fun _ _ => rfl⟩
      | exact ⟨rfl, rfl, fun j hj => setAt_ne _ _ hj⟩
  · exact ⟨rfl, rfl, fun j hj => setAt_ne _ _ hj⟩
  · exact ⟨rfl, rfl, fun _ _ => rfl⟩

theorem manualStep_frame (o : ManualOp) :
    (s.manualStep d i o).1.streams = s.streams ∧ (s.manualStep d i o).1.admin = s.admin ∧
      ∀ j, j ≠ i → (s.manualStep d i o).1.manual j = s.manual j := by
  simp only [manualStep]
  split
  · exact ⟨rfl, rfl, fun j hj => setAt_ne _ _ hj⟩
  · exact ⟨rfl, rfl, fun j hj => setAt_ne _ _ hj⟩
  · exact ⟨rfl, rfl, fun j hj => setAt_ne _ _ hj⟩
  · simp only [fireCommit]
    split
    · exact ⟨rfl, rfl, fun j hj => setAt_ne _ _ hj⟩
    · split
      · exact ⟨rfl, rfl, fun j hj => setAt_ne _ _ hj⟩
      · split
        · exact ⟨rfl, rfl, fun j hj => setAt_ne _ _ hj⟩
        · split
          · exact ⟨rfl, rfl, fun j hj => setAt_ne _ _ hj⟩
          · split <;> exact ⟨rfl, rfl, fun j hj => setAt_ne _ _ hj⟩
          · exact ⟨rfl, rfl, fun j hj => setAt_ne _ _ hj⟩
  · exact ⟨rfl, rfl, fun _ _ => rfl⟩

theorem adminStep_frame (o : AdminOp) :
    (s.adminStep d i o).streams = s.streams ∧ (s.adminStep d i o).manual = s.manual ∧
      ∀ j, j ≠ i → (s.adminStep d i o).admin j = s.admin j := by
  simp only [adminStep]
  split
  · simp only [register]
    split
    · exact ⟨rfl, rfl, fun _ _ => rfl⟩
    · exact ⟨rfl, rfl, fun j hj => setAt_ne _ _ hj⟩
  · exact ⟨rfl, rfl, fun j hj => setAt_ne _ _ hj⟩
  · simp only [loadUpdate]
    split
    · exact ⟨rfl, rfl, fun _ _ => rfl⟩
    · split
      · exact ⟨rfl, rfl, fun _ _ => rfl⟩
      · exact ⟨rfl, rfl, fun j hj => setAt_ne _ _ hj⟩
  · exact ⟨rfl, rfl, fun j hj => setAt_ne _ _ hj⟩
  · split <;> exact ⟨rfl, rfl, fun j hj => setAt_ne _ _ hj⟩
  · exact ⟨rfl, rfl, fun _ _ => rfl⟩
  · exact ⟨rfl, rfl, fun _ _ => rfl⟩
  · exact ⟨rfl, rfl, fun _ _ => rfl⟩
  · exact ⟨rfl, rfl, fun _ _ => rfl⟩

/-! ## The phases of a stream -/

def plannedBatch (d : Deployment) (s : SchedulerSystem) (lease : LeaderLease)
    (ids : List String) (configs : JsMap String DurableScheduleConfig)
    (states : JsMap String ScheduleState) (random : String → Rat) : PollBatch :=
  ⟨lease, planDueTicks d.calendar ids configs states s.storage.now random⟩

def brokenIds (batch : PollBatch) (acked : Nat) : List String :=
  ((readyPlans acked 0 batch.plans).filter fun plan => plan.error.isSome).map (·.id)

inductive PhaseStep (d : Deployment) (s : SchedulerSystem) :
    StreamOp → StreamPhase → StreamPhase → SchedulerAnswer → Prop
  | idle (o : StreamOp) (phase : StreamPhase) : PhaseStep d s o phase phase .none
  | start : PhaseStep d s .start .stopped .polling .none
  | acquired (lease : LeaderLease) :
      PhaseStep d s .tryAcquireLeader .polling (.acquired lease) .none
  | found (lease : LeaderLease) (ids : List String) :
      PhaseStep d s .findDue (.acquired lease) (.found lease ids) .none
  | nothingDue (lease : LeaderLease) : PhaseStep d s .findDue (.acquired lease) .polling .none
  | loadSchedules (lease : LeaderLease) (ids : List String) :
      PhaseStep d s .loadSchedules (.found lease ids)
        (.configsLoaded lease ids (s.storage.loadSchedules ids)) .none
  | loadScheduleStates (lease : LeaderLease) (ids : List String)
      (configs : JsMap String DurableScheduleConfig) :
      PhaseStep d s .loadScheduleStates (.configsLoaded lease ids configs)
        (.loaded lease ids configs (s.storage.loadScheduleStates ids)) .none
  | planEmpty (lease : LeaderLease) (ids : List String)
      (configs : JsMap String DurableScheduleConfig) (states : JsMap String ScheduleState)
      (random : String → Rat) :
      PhaseStep d s (.plan random) (.loaded lease ids configs states)
        (.committing (plannedBatch d s lease ids configs states random) 0 false) .none
  | planTicks (lease : LeaderLease) (ids : List String)
      (configs : JsMap String DurableScheduleConfig) (states : JsMap String ScheduleState)
      (random : String → Rat) (tick : ScheduleTick)
      (htick : tick ∈ (plannedBatch d s lease ids configs states random).ticks) :
      PhaseStep d s (.plan random) (.loaded lease ids configs states)
        (.emitting (plannedBatch d s lease ids configs states random) 1 0) (.delivered tick)
  | pullTick (batch : PollBatch) (index acked : Nat) (tick : ScheduleTick)
      (htick : tick ∈ batch.ticks) :
      PhaseStep d s .pull (.emitting batch index acked)
        (.emitting batch (index + 1) index) (.delivered tick)
  | pullEnd (batch : PollBatch) (index acked : Nat) :
      PhaseStep d s .pull (.emitting batch index acked) (.committing batch index false) .none
  | commitNothing (fails : Bool) (batch : PollBatch) (acked : Nat) (stopping : Bool) :
      PhaseStep d s (.commit fails) (.committing batch acked stopping) (afterCommit stopping) .none
  | commitReady (batch : PollBatch) (acked : Nat) (stopping : Bool) (conflicts : List String)
      (hcommit : (s.storage.commitPoll ((readyPlans acked 0 batch.plans).map (·.commit))
        (some batch.lease)).2 = .ok conflicts) :
      PhaseStep d s (.commit false) (.committing batch acked stopping)
        (disablingPhase (brokenIds batch acked) stopping) .none
  | disable (id : String) (ids : List String) (stopping : Bool) :
      PhaseStep d s .disable (.disabling (id :: ids) stopping) (disablingPhase ids stopping) .none
  | stopEmitting (batch : PollBatch) (index acked : Nat) :
      PhaseStep d s .stop (.emitting batch index acked) (.committing batch acked true) .none
  | stopCommitting (batch : PollBatch) (acked : Nat) (stopping : Bool) :
      PhaseStep d s .stop (.committing batch acked stopping) (.committing batch acked true) .none
  | stopDisabling (ids : List String) (stopping : Bool) :
      PhaseStep d s .stop (.disabling ids stopping) (.disabling ids true) .none
  | stopPolling (phase : StreamPhase) : PhaseStep d s .stop phase .releasing .none
  | release : PhaseStep d s .release .releasing .stopped .none

/-- Each branch of `streamStep` is one of the moves. -/
theorem phaseStep (o : StreamOp) :
    PhaseStep d s o (s.streams i) ((s.streamStep d i o).1.streams i) (s.streamStep d i o).2 := by
  simp only [streamStep]
  split
  · rename_i hphase
    simp only [hphase, setAt_self]
    exact .start
  · rename_i hphase
    simp only [hphase, pollLease, setAt_self]
    split
    · exact .acquired _
    · exact .idle _ _
  · rename_i lease hphase
    simp only [hphase, pollDue, toPhase, setAt_self]
    split
    · exact .nothingDue lease
    · exact .found lease _
  · rename_i hphase
    simp only [hphase, toPhase, setAt_self]
    exact .loadSchedules _ _
  · rename_i hphase
    simp only [hphase, toPhase, setAt_self]
    exact .loadScheduleStates _ _ _
  · rename_i random lease ids configs states hphase
    simp only [hphase, pollPlan]
    split
    · simp only [toPhase, setAt_self]
      exact .planEmpty lease ids configs states random
    · rename_i tick rest hticks
      simp only [toPhase, setAt_self]
      apply PhaseStep.planTicks lease ids configs states random tick
      simp only [plannedBatch]
      rw [hticks]
      exact List.mem_cons_self
  · rename_i batch index acked hphase
    simp only [hphase, nextTick]
    split
    · rename_i tick htick
      simp only [toPhase, setAt_self]
      exact .pullTick batch index acked tick (List.mem_of_getElem? htick)
    · simp only [toPhase, setAt_self]
      exact .pullEnd batch index acked
  · rename_i fails batch acked stopping hphase
    simp only [hphase, commitBatch]
    split
    · simp only [toPhase, setAt_self]
      exact .commitNothing fails batch acked stopping
    · rename_i hready
      split
      · simp only [toPhase, setAt_self]
        exact .commitNothing fails batch acked stopping
      · rename_i conflicts hcommit
        simp only [setAt_self]
        -- a commit that is to fail makes no call
        have hfails : fails = false := by
          simp only [Bool.or_eq_true, not_or, Bool.not_eq_true] at hready
          exact hready.2
        rw [hfails]
        exact .commitReady batch acked stopping conflicts hcommit
  · rename_i hphase
    simp only [hphase, setAt_self]
    exact .disable _ _ _
  · simp only [stopStream]
    split <;> rename_i hphase
    · rw [hphase]
      exact .idle _ _
    · rw [hphase]
      exact .idle _ _
    · rw [hphase]
      simp only [toPhase, setAt_self]
      exact .stopEmitting _ _ _
    · rw [hphase]
      simp only [toPhase, setAt_self]
      exact .stopCommitting _ _ _
    · rw [hphase]
      simp only [toPhase, setAt_self]
      exact .stopDisabling _ _
    · simp only [toPhase, setAt_self]
      exact .stopPolling _
  · rename_i hphase
    simp only [hphase, releaseStream, setAt_self]
    exact .release
  · exact .idle _ _

/-- What is stored comes from a `register` that accepted it or from an `update` in flight. -/
theorem storageCall_stores {s : SchedulerSystem} {o : SchedulerOp} {call : SchedulerStorageOp}
    (h : storageCall d s o = some call) {config : DurableScheduleConfig} {token : String}
    (hcall : call = .upsertSchedule config token ∨ call = .insertSchedule config token) :
    (∃ given ns, validateScheduleConfig d.calendar given = .ok () ∧
      config = { given with «namespace» := ns }) ∨ ∃ i, s.admin i = some (.merged config) := by
  cases o with
  | advance ms =>
    cases h
    simp at hcall
  | stream i o =>
    simp only [storageCall, streamCall] at h
    split at h
    · cases h
      simp at hcall
    · split at h
      · cases h
      · cases h
        simp at hcall
    · cases h
      simp at hcall
    · obtain ⟨lease, -, rfl⟩ := Option.map_eq_some_iff.mp h
      simp at hcall
    · cases h
  | manual i o =>
    simp only [storageCall, manualCall] at h
    split at h
    · split at h
      · cases h
      · cases h
        simp at hcall
    · cases h
  | admin i o =>
    simp only [storageCall, adminCall] at h
    split at h
    · split at h
      · cases h
      · rename_i hvalid
        cases h
        simp only [SchedulerStorageOp.upsertSchedule.injEq, reduceCtorEq, or_false] at hcall
        exact .inl ⟨_, _, hvalid, hcall.1.symm⟩
    · cases h
      simp at hcall
    · rename_i hadmin
      cases h
      simp only [SchedulerStorageOp.upsertSchedule.injEq, reduceCtorEq, or_false] at hcall
      exact .inr ⟨i, hcall.1 ▸ hadmin⟩
    · split at h
      · cases h
      · cases h
        simp at hcall
    · cases h
      simp at hcall
    · cases h
      simp at hcall
    · cases h
      simp at hcall
    · cases h

private theorem adminStep_held {P : Option AdminCall → Prop} {s : SchedulerSystem}
    (h : ∀ j, P (s.admin j)) (hnone : P none) (hregistered : ∀ id, P (some (.registered id)))
    (hmerged : ∀ config, validateScheduleConfig d.calendar config = .ok () →
      P (some (.merged config)))
    (hupdated : ∀ config, P (some (.merged config)) → P (some (.updated config)))
    (i : Nat) (o : AdminOp) : P ((s.adminStep d i o).admin i) := by
  simp only [adminStep]
  split
  · simp only [register]
    split
    · exact h i
    · simp only [setAt_self]
      split
      · exact hregistered _
      · exact hnone
  · simp only [setAt_self]
    exact hnone
  · simp only [loadUpdate]
    split
    · exact h i
    · split
      · exact h i
      · rename_i hvalid
        simp only [toAdmin, setAt_self]
        exact hmerged _ hvalid
  · rename_i config hcall
    have hold := h i
    rw [hcall] at hold
    simp only [setAt_self]
    split
    · exact hupdated _ hold
    · exact hnone
  · split
    · simp only [toAdmin, setAt_self]
      exact hnone
    · simp only [setAt_self]
      exact hnone
  · exact h i
  · exact h i
  · exact h i
  · exact h i

/-- What the admin calls in flight hold: an update holds a config that was accepted. -/
theorem next_held {P : Option AdminCall → Prop} {s : SchedulerSystem} (h : ∀ j, P (s.admin j))
    (hnone : P none) (hregistered : ∀ id, P (some (.registered id)))
    (hmerged : ∀ config, validateScheduleConfig d.calendar config = .ok () →
      P (some (.merged config)))
    (hupdated : ∀ config, P (some (.merged config)) → P (some (.updated config)))
    (o : SchedulerOp) (j : Nat) : P (((schedulerSystem d).next s o).admin j) := by
  cases o with
  | admin i o =>
    by_cases hj : j = i
    · subst hj
      exact adminStep_held h hnone hregistered hmerged hupdated j o
    · have hother : ((schedulerSystem d).next s (.admin i o)).admin j = s.admin j :=
        (adminStep_frame s i o).2.2 j hj
      rw [hother]
      exact h j
  | stream i o =>
    have hother : ((schedulerSystem d).next s (.stream i o)).admin = s.admin :=
      (streamStep_frame s i o).2.1
    rw [hother]
    exact h j
  | manual i o =>
    have hother : ((schedulerSystem d).next s (.manual i o)).admin = s.admin :=
      (manualStep_frame s i o).2.1
    rw [hother]
    exact h j
  | advance ms => exact h j

end Promin.Scheduler

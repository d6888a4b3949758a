import Promin.Spec.SchedulerSystemSteps

/-!
# The history of a scheduler system

`History` records beside the system what was handed out, what was committed, and
what was committed when each stream or manual fire loaded the states it numbers
from.
-/

namespace Promin.Scheduler

open InMemorySchedulerStorage SchedulerSystem List

/-! ## Names and histories -/

structure TickName where
  scheduleId : String
  incarnation : String
  tickNumber : Nat
  deriving DecidableEq

def tickName (t : ScheduleTick) : TickName := ⟨t.scheduleId, t.incarnation, t.tickNumber⟩

structure PollInput where
  config : DurableScheduleConfig
  state : ScheduleState
  now : Int

/-- What a poll planned all its schedules from. -/
structure Planning where
  configs : JsMap String DurableScheduleConfig
  states : JsMap String ScheduleState
  now : Int

/-- What a poll was planned from. -/
def Planning.input (p : Planning) (t : ScheduleTick) : Option PollInput :=
  match p.configs.get t.scheduleId, p.states.get t.scheduleId with
  | some config, some state => some ⟨config, state, p.now⟩
  | _, _ => none

/-- What happened so far. -/
structure History where
  /-- The ticks handed out, with what a poll planned them from (none: a manual fire). -/
  handedOut : List (ScheduleTick × Option PollInput)
  committed : List TickName
  /-- The incarnation tokens taken. -/
  issued : List String
  /-- For a stream, what was committed when it loaded the states it plans from. -/
  seen : Nat → List TickName
  /-- The same for a manual fire. -/
  seenManual : Nat → List TickName
  /-- What a stream's batch was planned from. -/
  planning : Nat → Planning

/-- Nothing happened yet. -/
def History.empty : History :=
  ⟨[], [], [], fun _ => [], fun _ => [], fun _ => ⟨.empty, .empty, 0⟩⟩

variable (d : Deployment)

/-- The ticks a call hands to consumers. -/
def handedTicks (s : SchedulerSystem) (o : SchedulerOp) : List ScheduleTick :=
  match (schedulerSystem d).out s o with
  | .delivered tick => [tick]
  | .fired ticks => ticks
  | .none => []

def appliedTicks (s : InMemorySchedulerStorage) : List ScheduleCommit → List ScheduleTick
  | [] => []
  | u :: rest =>
    (if (s.commitEntry u).2 then [] else u.ticks) ++ appliedTicks (s.commitEntry u).1 rest

def committedTicks (s : SchedulerSystem) (o : SchedulerOp) : List ScheduleTick :=
  match storageCall d s o with
  | some (.commitPoll updates lease) =>
    match (s.storage.commitPoll updates lease).2 with
    | .ok _ => appliedTicks s.storage updates
    | .error _ => []
  | _ => []

def takenTokens (s : SchedulerSystem) (o : SchedulerOp) : List String :=
  match storageCall d s o with
  | some call => issuedIncarnation s.storage call
  | none => []

def seenAfter (committed seen : List TickName) : StreamOp → StreamPhase → List TickName
  | .loadScheduleStates, .configsLoaded _ _ _ => committed
  | _, _ => seen

def planningAfter (now : Int) (planning : Planning) : StreamOp → StreamPhase → Planning
  | .plan _, .loaded _ _ configs states => ⟨configs, states, now⟩
  | _, _ => planning

def seenManualAfter (committed seen : List TickName) :
    ManualOp → Option ManualCall → List TickName
  | .loadScheduleState, some (.wantsState _ _ _ _) => committed
  | _, _ => seen

def History.inputOf (g : History) (s : SchedulerSystem) (o : SchedulerOp) (t : ScheduleTick) :
    Option PollInput :=
  match o with
  | .stream i o => (planningAfter s.storage.now (g.planning i) o (s.streams i)).input t
  | _ => none

/-- What a call adds to the history. -/
def History.after (g : History) (s : SchedulerSystem) (o : SchedulerOp) : History where
  handedOut := g.handedOut ++ (handedTicks d s o).map fun t => (t, g.inputOf s o t)
  committed := g.committed ++ (committedTicks d s o).map tickName
  issued := g.issued ++ takenTokens d s o
  seen := match o with
    | .stream i o => setAt g.seen i (seenAfter g.committed (g.seen i) o (s.streams i))
    | _ => g.seen
  seenManual := match o with
    | .manual i o =>
      setAt g.seenManual i (seenManualAfter g.committed (g.seenManual i) o (s.manual i))
    | _ => g.seenManual
  planning := match o with
    | .stream i o =>
      setAt g.planning i (planningAfter s.storage.now (g.planning i) o (s.streams i))
    | _ => g.planning

/-! ## What the history says about the states -/

def Below (names : List TickName) (id : String) (state : ScheduleState) : Prop :=
  ∀ n ∈ names, n.scheduleId = id → n.incarnation = state.incarnation →
    n.tickNumber < state.tickCount

/-- Configs are stored under their ids, and intervals are positive. -/
def ConfigsOk (configs : JsMap String DurableScheduleConfig) : Prop :=
  ∀ id config, configs.get id = some config →
    config.id = id ∧ ∀ interval, config.intervalMs = some interval → 0 < interval

def PollTick (p : PollInput) (t : ScheduleTick) : Prop :=
  (∀ interval, p.config.intervalMs = some interval → 0 < interval) ∧
    ∃ occurrences, dueOccurrences d.calendar p.config p.state.lastFired p.now = .ok occurrences ∧
      t ∈ numberTicks p.config p.now p.state.incarnation p.state.tickCount occurrences

def BatchOk (batch : PollBatch) (seen : List TickName) (p : Planning) : Prop :=
  ConfigsOk p.configs ∧ (∀ id state, p.states.get id = some state → Below seen id state) ∧
    ∃ ids random, batch.plans = planDueTicks d.calendar ids p.configs p.states p.now random

def PhaseOk (seen : List TickName) (p : Planning) : StreamPhase → Prop
  | .configsLoaded _ _ configs => ConfigsOk configs
  | .loaded _ _ configs states =>
    ConfigsOk configs ∧ ∀ id state, states.get id = some state → Below seen id state
  | .emitting batch _ _ => BatchOk d batch seen p
  | .committing batch _ _ => BatchOk d batch seen p
  | _ => True

def ManualOk (seen : List TickName) : Option ManualCall → Prop
  | some (.loaded id _ _ _ state) => Below seen id state
  | _ => True

def AdminOk : Option AdminCall → Prop
  | some (.merged config) => ∀ interval, config.intervalMs = some interval → 0 < interval
  | _ => True

structure HistoryOk (p : SchedulerSystem × History) : Prop where
  configs : ConfigsOk p.1.storage.schedules
  below : ∀ id state, p.1.storage.state.get id = some state → Below p.2.committed id state
  issuedCommitted : ∀ n ∈ p.2.committed, n.incarnation ∈ p.2.issued
  issuedStored : ∀ id state, p.1.storage.state.get id = some state →
    state.incarnation ∈ p.2.issued
  phases : ∀ i, PhaseOk d (p.2.seen i) (p.2.planning i) (p.1.streams i)
  manuals : ∀ i, ManualOk (p.2.seenManual i) (p.1.manual i)
  admins : ∀ i, AdminOk (p.1.admin i)
  handed : ∀ t input, (t, some input) ∈ p.2.handedOut → PollTick d input t

variable {d}

/-! ## What a storage call does to configs -/

theorem ConfigsOk.set {configs : JsMap String DurableScheduleConfig} (h : ConfigsOk configs)
    (config : DurableScheduleConfig) (hpos : ∀ interval, config.intervalMs = some interval →
      0 < interval) : ConfigsOk (configs.set config.id config) := by
  intro id c hc
  rw [JsMap.get_set] at hc
  split at hc
  · rename_i hid
    cases hc
    exact ⟨hid, hpos⟩
  · exact h id c hc

theorem interval_pos_of_valid {cal : Calendar} {config : DurableScheduleConfig}
    (h : validateScheduleConfig cal config = .ok ()) :
    ∀ interval, config.intervalMs = some interval → 0 < interval := by
  intro interval hinterval
  by_contra hle
  have hfail : ∃ e, checkNumber config.intervalMs (fun n => decide (0 < n)) "intervalMs"
      "a positive number" config.id = .error e := by
    simp [checkNumber, check, hinterval, hle]
  obtain ⟨e, he⟩ := hfail
  simp only [validateScheduleConfig, he, bind, Except.bind] at h
  repeat (split at h; cases h)
  cases h

variable {s : InMemorySchedulerStorage}

theorem ConfigsOk.call (h : ConfigsOk s.schedules) (call : SchedulerStorageOp)
    (hstored : ∀ config token, call = .upsertSchedule config token ∨
      call = .insertSchedule config token → ∀ interval, config.intervalMs = some interval →
        0 < interval) : ConfigsOk (schedulerStorage.next s call).schedules := by
  cases call with
  | advance ms | tryAcquireLeader key instanceId ttlMs | releaseLeader lease => exact h
  | commitPoll updates lease =>
    show ConfigsOk (s.commitPoll updates lease).1.schedules
    rw [commitPoll_schedules]
    exact h
  | upsertSchedule config token =>
    show ConfigsOk (s.upsertSchedule config token).schedules
    rw [upsertSchedule_schedules]
    exact h.set { config with enabled := some config.isEnabled }
      (hstored config token (.inl rfl))
  | insertSchedule config token =>
    show ConfigsOk (s.insertSchedule config token).1.schedules
    simp only [insertSchedule]
    split
    · exact h
    · rw [upsertSchedule_schedules]
      exact h.set { config with enabled := some config.isEnabled }
        (hstored config token (.inr rfl))
  | deleteSchedule id =>
    intro id' config hget
    have hdel : (s.schedules.delete id).get id' = some config := hget
    rw [JsMap.get_delete] at hdel
    split at hdel
    · cases hdel
    · exact h id' config hdel
  | setEnabled id enabled =>
    show ConfigsOk (s.setEnabled id enabled).schedules
    rw [setEnabled_schedules]
    cases hcfg : s.schedules.get id with
    | none => exact h
    | some cfg =>
      obtain ⟨hid, hpos⟩ := h id cfg hcfg
      have hset := h.set { cfg with enabled := some enabled } hpos
      rw [← hid]
      exact hset
  | setNextRun id nextRun => cases nextRun <;> exact h
  | recordFire id firedAt count =>
    show ConfigsOk (s.recordFire id firedAt count).schedules
    simp only [recordFire]
    split <;> exact h

/-! ## What a commit adds -/

def OwnTicks (u : ScheduleCommit) : Prop :=
  Continues u ∧ ∀ t ∈ u.ticks, t.scheduleId = u.id

variable {t : ScheduleTick}

private theorem commitEntry_ticks {u : ScheduleCommit} (hu : OwnTicks u)
    (ht : t ∈ if (s.commitEntry u).2 then [] else u.ticks) :
    ∃ state state', s.state.get t.scheduleId = some state ∧
      (s.commitEntry u).1.state.get t.scheduleId = some state' ∧
      t.incarnation = state.incarnation ∧ state'.incarnation = state.incarnation ∧
      t.tickNumber < state'.tickCount := by
  obtain ⟨hcont, hown⟩ := hu
  obtain ⟨-, heq⟩ | ⟨cfg, state, -, hstate, hguard, heq⟩ | ⟨-, hguard, heq⟩ :=
    commitEntry_cases s u
  · simp [heq] at ht
  · simp only [heq, Bool.false_eq_true, ↓reduceIte] at ht
    cases hcont with
    | inl hnone => simp [hnone.1] at ht
    | inr hticks =>
      obtain ⟨base, incarnation, -, hbase, hinc, hfired, hincr, hnumbers, hticksInc⟩ := hticks
      obtain ⟨hcount, hsame⟩ := (mismatched_eq_false_iff u state).mp hguard
      have hnumber : t.tickNumber < base + u.ticks.length := by
        have hmem : t.tickNumber ∈ u.ticks.map (·.tickNumber) := mem_map_of_mem ht
        rw [hnumbers] at hmem
        exact (mem_range'_1.mp hmem).2
      refine ⟨state, committedState u state, ?_, ?_, ?_, committedState_incarnation u state, ?_⟩
      · rw [hown t ht]
        exact hstate
      · rw [heq, hown t ht]
        exact JsMap.get_set_self _ _ _
      · rw [hticksInc t ht]
        exact (hsame incarnation hinc).symm
      · rw [committedState_tickCount, hincr, hcount base hbase]
        simp only [hfired, ↓reduceIte, Option.getD_some]
        exact hnumber
  · simp only [heq, Bool.false_eq_true, ↓reduceIte] at ht
    cases hcont with
    | inl hnone => simp [hnone.1] at ht
    | inr hticks =>
      obtain ⟨base, incarnation, -, hbase, -⟩ := hticks
      simp [mismatched, hbase] at hguard

theorem appliedTicks_spec {updates : List ScheduleCommit} (hu : ∀ u ∈ updates, OwnTicks u)
    (ht : t ∈ appliedTicks s updates) :
    (∃ state, s.state.get t.scheduleId = some state ∧ t.incarnation = state.incarnation) ∧
    ∀ state', (s.commitEntries updates).1.state.get t.scheduleId = some state' →
      t.incarnation = state'.incarnation → t.tickNumber < state'.tickCount := by
  induction updates generalizing s with
  | nil => simp [appliedTicks] at ht
  | cons u rest ih =>
    have hrest : ∀ v ∈ rest, OwnTicks v := fun v hv => hu v (mem_cons_of_mem _ hv)
    cases mem_append.mp ht with
    | inl hhead =>
      obtain ⟨state, state₁, hstate, hstate₁, hinc, hsame, hlt⟩ :=
        commitEntry_ticks (hu u mem_cons_self) hhead
      refine ⟨⟨state, hstate, hinc⟩, fun state' hstate' hinc' => ?_⟩
      -- the entries after it only move the count on
      have hlater : ContinuesFrom (s.commitEntry u).1
          ((s.commitEntry u).1.commitEntries rest).1 := by
        apply commitEntries_induction (P := ContinuesFrom (s.commitEntry u).1) rest
        · exact fun r v _ hr => hr.trans (commitEntry_continuesFrom r v)
        · exact .refl _
      obtain ⟨st, hst, -, hle⟩ := hlater _ _ hstate'
      rw [hstate₁] at hst
      cases hst
      omega
    | inr htail =>
      obtain ⟨⟨st, hst, hinc⟩, hbelow⟩ := ih hrest htail
      obtain ⟨state, hstate, hsame, -⟩ := commitEntry_continuesFrom s u _ _ hst
      exact ⟨⟨state, hstate, hinc.trans hsame⟩, hbelow⟩

/-! ## What a plan numbers -/

theorem mem_numberTicks {config : DurableScheduleConfig} {firedAt : Int} {incarnation : String}
    {tickCount : Nat} {occurrences : List Int}
    (h : t ∈ numberTicks config firedAt incarnation tickCount occurrences) :
    t.scheduleId = config.id ∧ t.incarnation = incarnation ∧
      ∃ i, occurrences[i]? = some t.scheduledAt ∧ t.tickNumber = tickCount + i := by
  simp only [numberTicks, mem_map] at h
  obtain ⟨⟨o, i⟩, hmem, hp⟩ := h
  rw [← hp]
  exact ⟨rfl, rfl, i, mem_zipIdx_iff_getElem?.mp hmem, rfl⟩

theorem planned_ownTicks {cal : Calendar} {ids : List String}
    {configs : JsMap String DurableScheduleConfig} {states : JsMap String ScheduleState}
    {now : Int} {random : String → Rat} {plan : PlannedSchedule} (hconfigs : ConfigsOk configs)
    (h : plan ∈ planDueTicks cal ids configs states now random) : OwnTicks plan.commit := by
  refine ⟨(BuiltByPlan.poll ids configs states now random plan h).continues, ?_⟩
  obtain ⟨id, -, rfl⟩ := mem_map.mp h
  obtain ⟨hplan, -⟩ | ⟨cfg, st, e, -, -, -, -, hplan⟩ |
    ⟨cfg, st, occurrences, nextRun, hcfg, -, -, -, -, hplan⟩ :=
    planDueTick_cases cal (configs.get id) (states.get id) now (random id) id
  · rw [hplan]
    exact fun t ht => absurd ht not_mem_nil
  · rw [hplan]
    exact fun t ht => absurd ht not_mem_nil
  · rw [hplan]
    intro t ht
    exact (mem_numberTicks ht).1.trans (hconfigs id cfg hcfg).1

theorem readyPlans_subset {acked : Nat} {start : Nat} {plans : List PlannedSchedule}
    {plan : PlannedSchedule} (h : plan ∈ readyPlans acked start plans) : plan ∈ plans := by
  induction plans generalizing start with
  | nil => simp [readyPlans] at h
  | cons p rest ih =>
    simp only [readyPlans] at h
    split at h
    · cases mem_cons.mp h with
      | inl hp => exact hp ▸ mem_cons_self
      | inr hrest => exact mem_cons_of_mem _ (ih hrest)
    · exact mem_cons_of_mem _ (ih h)

variable {o : SchedulerOp} {s : SchedulerSystem} {seen : List TickName}

theorem BatchOk.tick {batch : PollBatch} {p : Planning}
    (h : BatchOk d batch seen p) (ht : t ∈ batch.ticks) :
    ∃ input, p.input t = some input ∧ PollTick d input t ∧
      Below seen t.scheduleId input.state ∧ t.incarnation = input.state.incarnation ∧
      input.state.tickCount ≤ t.tickNumber := by
  obtain ⟨hconfigs, hbelow, ids, random, hplans⟩ := h
  simp only [PollBatch.ticks, hplans, mem_flatMap] at ht
  obtain ⟨plan, hplan, ht⟩ := ht
  obtain ⟨id, -, rfl⟩ := mem_map.mp hplan
  obtain ⟨hplan, -⟩ | ⟨cfg, st, e, -, -, -, -, hplan⟩ |
    ⟨cfg, st, occurrences, nextRun, hcfg, hst, -, hdue, -, hplan⟩ :=
    planDueTick_cases d.calendar (p.configs.get id) (p.states.get id) p.now (random id) id
  · rw [hplan] at ht
    exact absurd ht not_mem_nil
  · rw [hplan] at ht
    exact absurd ht not_mem_nil
  · rw [hplan] at ht
    obtain ⟨hid, hpos⟩ := hconfigs id cfg hcfg
    obtain ⟨hsched, hinc, i, hoccurrence, hnumber⟩ := mem_numberTicks ht
    have hsched' : t.scheduleId = id := hsched.trans hid
    refine ⟨⟨cfg, st, p.now⟩, ?_, ⟨hpos, occurrences, hdue, ht⟩, ?_, hinc, ?_⟩
    · simp [Planning.input, hsched', hcfg, hst]
    · rw [hsched']
      exact hbelow id st hst
    · show st.tickCount ≤ t.tickNumber
      omega

/-! ## The storage call of an operation, with what is in flight -/

theorem storageCall_upsert (hadmins : ∀ i, AdminOk (s.admin i))
    {call : SchedulerStorageOp} (h : storageCall d s o = some call)
    (config : DurableScheduleConfig) (token : String)
    (hcall : call = .upsertSchedule config token ∨ call = .insertSchedule config token) :
    ∀ interval, config.intervalMs = some interval → 0 < interval := by
  obtain ⟨given, ns, hvalid, rfl⟩ | ⟨i, hadmin⟩ := storageCall_stores h hcall
  · exact interval_pos_of_valid hvalid
  · have hok := hadmins i
    rw [hadmin] at hok
    exact hok

variable {p : SchedulerSystem × History}

/-- What is committed are ticks planned for their own schedule. -/
theorem storageCall_commit (h : HistoryOk d p)
    {updates : List ScheduleCommit} {lease : Option LeaderLease}
    (hcall : storageCall d p.1 o = some (.commitPoll updates lease)) :
    ∀ u ∈ updates, OwnTicks u := by
  cases o with
  | advance ms => cases hcall
  | stream i o =>
    simp only [storageCall, streamCall] at hcall
    split at hcall
    · cases hcall
    · rename_i batch acked stopping hphase
      split at hcall
      · cases hcall
      · cases hcall
        have hok := h.phases i
        rw [hphase] at hok
        obtain ⟨hconfigs, -, ids, random, hplans⟩ := hok
        intro u hu
        obtain ⟨plan, hplan, rfl⟩ := mem_map.mp hu
        -- every committed plan was planned from the rows read
        have hmem := readyPlans_subset hplan
        rw [hplans] at hmem
        exact planned_ownTicks hconfigs hmem
    · cases hcall
    · obtain ⟨l, -, hl⟩ := Option.map_eq_some_iff.mp hcall
      cases hl
    · cases hcall
  | manual i o =>
    simp only [storageCall, manualCall] at hcall
    split at hcall
    · rename_i fails scheduleId fire attempt config state hmanual
      split at hcall
      · cases hcall
      · rename_i hticks
        cases hcall
        intro u hu
        rw [mem_singleton.mp hu]
        cases hocc : fire.occurrences d.calendar config p.1.storage.now with
        | error e => simp [firedTicks, hocc] at hticks
        | ok occurrences =>
          have hfired : firedTicks d p.1 scheduleId fire config state =
              manualTicks scheduleId config state p.1.storage.now occurrences := by
            simp [firedTicks, hocc]
          -- without ticks nothing is committed
          have hne : occurrences ≠ [] := by
            intro hnil
            simp [hfired, hnil, manualTicks, numberTicks] at hticks
          rw [hfired]
          constructor
          · have hbuilt : BuiltByPlan d.calendar _ :=
              .manual scheduleId config state p.1.storage.now occurrences hne
            exact hbuilt.continues
          · exact fun t ht => (mem_numberTicks ht).1
    · cases hcall
  | admin i o =>
    simp only [storageCall, adminCall] at hcall
    split at hcall
    · split at hcall <;> cases hcall
    · cases hcall
    · cases hcall
    · split at hcall <;> cases hcall
    · cases hcall
    · cases hcall
    · cases hcall
    · cases hcall

/-! ## The history stays right -/

/-- The schedulers with the history of their run. -/
abbrev recorded (d : Deployment) :
    Machine (SchedulerSystem × History) SchedulerOp SchedulerAnswer :=
  (schedulerSystem d).withGhost (History.after d)

theorem next_fireStep {id : String} {state' : ScheduleState}
    (h : ((schedulerSystem d).next s o).storage.state.get id = some state') :
    (∃ state, s.storage.state.get id = some state ∧ state'.incarnation = state.incarnation ∧
      state.tickCount ≤ state'.tickCount) ∨ state'.incarnation ∈ takenTokens d s o := by
  rw [next_storage] at h
  cases hcall : storageCall d s o with
  | none =>
    rw [hcall] at h
    exact .inl ⟨state', h, rfl, Nat.le_refl _⟩
  | some call =>
    rw [hcall] at h
    simp only [takenTokens, hcall]
    exact fireStep s.storage call id state' h

theorem committedTicks_spec (h : HistoryOk d p) (ht : t ∈ committedTicks d p.1 o) :
    (∃ state, p.1.storage.state.get t.scheduleId = some state ∧
      t.incarnation = state.incarnation) ∧
    ∀ state', ((schedulerSystem d).next p.1 o).storage.state.get t.scheduleId = some state' →
      t.incarnation = state'.incarnation → t.tickNumber < state'.tickCount := by
  simp only [committedTicks] at ht
  split at ht
  · rename_i updates lease hcall
    have hown := storageCall_commit h hcall
    split at ht
    · rename_i conflicts hok
      have hafter : ((schedulerSystem d).next p.1 o).storage =
          (p.1.storage.commitEntries updates).1 := by
        rw [next_storage, hcall]
        show (p.1.storage.commitPoll updates lease).1 = _
        obtain ⟨l, e, -, -, heq⟩ | ⟨-, heq⟩ := commitPoll_cases p.1.storage updates lease
        · rw [heq] at hok
          cases hok
        · rw [heq]
      rw [hafter]
      exact appliedTicks_spec hown ht
    · exact absurd ht not_mem_nil
  · exact absurd ht not_mem_nil

private theorem phaseOk_idle {committed : List TickName} {planning : Planning} {now : Int}
    (o : StreamOp) {phase : StreamPhase} (h : PhaseOk d seen planning phase) :
    PhaseOk d (seenAfter committed seen o phase) (planningAfter now planning o phase) phase := by
  cases phase with
  | emitting batch index acked | committing batch acked stopping
  | loaded lease ids configs states => cases o <;> exact h
  | configsLoaded lease ids configs => exact h
  | _ => trivial

private theorem phaseOk_step (h : HistoryOk d p) (i : Nat) (o : StreamOp) :
    PhaseOk d (seenAfter p.2.committed (p.2.seen i) o (p.1.streams i))
      (planningAfter p.1.storage.now (p.2.planning i) o (p.1.streams i))
      ((p.1.streamStep d i o).1.streams i) := by
  have hold := h.phases i
  have hstep := phaseStep (d := d) p.1 i o
  generalize p.1.streams i = before at hold hstep
  generalize (p.1.streamStep d i o).1.streams i = after at hstep
  generalize (p.1.streamStep d i o).2 = answer at hstep
  cases hstep with
  | idle => exact phaseOk_idle o hold
  | loadSchedules lease ids =>
    exact fun id config hget => h.configs id config (loadSchedules_get hget)
  | loadScheduleStates lease ids configs =>
    exact ⟨hold, fun id state hget => h.below id state (loadScheduleStates_get hget)⟩
  | planEmpty lease ids configs states random
  | planTicks lease ids configs states random tick htick =>
    exact ⟨hold.1, hold.2, ids, random, rfl⟩
  | pullTick batch index acked tick htick | pullEnd batch index acked
  | stopEmitting batch index acked | stopCommitting batch acked stopping => exact hold
  | commitNothing fails batch acked stopping => cases stopping <;> trivial
  | commitReady batch acked stopping conflicts hcommit | disable id ids stopping =>
    simp only [disablingPhase]
    split
    · cases stopping <;> trivial
    · trivial
  | _ => trivial

private theorem manualOk_idle {committed : List TickName} (o : ManualOp)
    {call : Option ManualCall} (h : ManualOk seen call) :
    ManualOk (seenManualAfter committed seen o call) call := by
  cases call with
  | none => trivial
  | some call =>
    cases call with
    | loaded scheduleId fire attempt config state => cases o <;> exact h
    | _ => trivial

private theorem manualOk_step (h : HistoryOk d p) (i : Nat) (o : ManualOp) :
    ManualOk (seenManualAfter p.2.committed (p.2.seenManual i) o (p.1.manual i))
      ((p.1.manualStep d i o).1.manual i) := by
  have hold := h.manuals i
  simp only [manualStep]
  split
  · simp only [toManual, setAt_self]
    trivial
  · simp only [toManual, setAt_self]
    trivial
  · rename_i scheduleId fire attempt config hmanual
    rw [hmanual]
    simp only [toManual, setAt_self]
    split
    · rename_i config' state hload
      exact h.below scheduleId state (state_of_loadScheduleState hload)
    · trivial
  · simp only [fireCommit]
    split
    · simp only [toManual, setAt_self]
      trivial
    · split
      · simp only [toManual, setAt_self]
        trivial
      · split
        · simp only [toManual, setAt_self]
          trivial
        · split
          · simp only [toManual, setAt_self]
            trivial
          · split <;> simp only [toManual, setAt_self] <;> trivial
          · simp only [toManual, setAt_self]
            trivial
  · exact manualOk_idle _ hold

theorem delivered_tick (h : HistoryOk d p) {i : Nat}
    {o : StreamOp} (ht : t ∈ handedTicks d p.1 (.stream i o)) :
    ∃ batch, t ∈ batch.ticks ∧ BatchOk d batch (p.2.seen i)
      (planningAfter p.1.storage.now (p.2.planning i) o (p.1.streams i)) := by
  have hold := h.phases i
  have hstep := phaseStep (d := d) p.1 i o
  have hout : (schedulerSystem d).out p.1 (.stream i o) = (p.1.streamStep d i o).2 := rfl
  simp only [handedTicks, hout] at ht
  generalize p.1.streams i = before at hold hstep
  generalize (p.1.streamStep d i o).1.streams i = after at hstep
  generalize (p.1.streamStep d i o).2 = answer at hstep ht
  cases hstep with
  | planTicks lease ids configs states random tick htick =>
    rw [mem_singleton.mp ht]
    exact ⟨_, htick, hold.1, hold.2, ids, random, rfl⟩
  | pullTick batch index acked tick htick =>
    rw [mem_singleton.mp ht]
    exact ⟨batch, htick, hold⟩
  | _ => exact absurd ht not_mem_nil

theorem HistoryOk.next (h : HistoryOk d p) (o : SchedulerOp)
    (hfresh : ∀ token ∈ takenTokens d p.1 o, token ∉ p.2.issued) :
    HistoryOk d ((recorded d).next p o) := by
  show HistoryOk d ((schedulerSystem d).next p.1 o, p.2.after d p.1 o)
  constructor
  · show ConfigsOk ((schedulerSystem d).next p.1 o).storage.schedules
    rw [next_storage]
    cases hcall : storageCall d p.1 o with
    | none => exact h.configs
    | some call => exact h.configs.call call (storageCall_upsert h.admins hcall)
  · intro id state' hstate' n hn hid hinc
    cases mem_append.mp hn with
    | inl hold =>
      cases next_fireStep hstate' with
      | inl hkept =>
        obtain ⟨state, hstate, hsame, hle⟩ := hkept
        exact Nat.lt_of_lt_of_le (h.below id state hstate n hold hid (hinc.trans hsame)) hle
      | inr hnew =>
        -- a new incarnation has no committed ticks
        have hissued := h.issuedCommitted n hold
        rw [hinc] at hissued
        exact absurd hissued (hfresh _ hnew)
    | inr hnew =>
      obtain ⟨t, ht, rfl⟩ := mem_map.mp hnew
      have hstate : ((schedulerSystem d).next p.1 o).storage.state.get t.scheduleId =
          some state' := by
        rw [← hid] at hstate'
        exact hstate'
      exact (committedTicks_spec h ht).2 state' hstate hinc
  · intro n hn
    cases mem_append.mp hn with
    | inl hold => exact mem_append_left _ (h.issuedCommitted n hold)
    | inr hnew =>
      obtain ⟨t, ht, rfl⟩ := mem_map.mp hnew
      obtain ⟨⟨state, hstate, hinc⟩, -⟩ := committedTicks_spec h ht
      apply mem_append_left
      show t.incarnation ∈ p.2.issued
      rw [hinc]
      exact h.issuedStored _ state hstate
  · intro id state' hstate'
    cases next_fireStep hstate' with
    | inl hkept =>
      obtain ⟨state, hstate, hsame, -⟩ := hkept
      rw [hsame]
      exact mem_append_left _ (h.issuedStored id state hstate)
    | inr hnew => exact mem_append_right _ hnew
  · intro j
    cases o with
    | stream i o =>
      by_cases hj : j = i
      · subst hj
        simp only [History.after, setAt_self]
        exact phaseOk_step h j o
      · have hother : ((schedulerSystem d).next p.1 (.stream i o)).streams j = p.1.streams j :=
          (streamStep_frame p.1 i o).2.2 j hj
        simp only [History.after, setAt_ne _ _ hj, hother]
        exact h.phases j
    | manual i o =>
      have hother : ((schedulerSystem d).next p.1 (.manual i o)).streams = p.1.streams :=
        (manualStep_frame p.1 i o).1
      simp only [History.after, hother]
      exact h.phases j
    | admin i o =>
      have hother : ((schedulerSystem d).next p.1 (.admin i o)).streams = p.1.streams :=
        (adminStep_frame p.1 i o).1
      simp only [History.after, hother]
      exact h.phases j
    | advance ms => exact h.phases j
  · intro j
    cases o with
    | manual i o =>
      by_cases hj : j = i
      · subst hj
        simp only [History.after, setAt_self]
        exact manualOk_step h j o
      · have hother : ((schedulerSystem d).next p.1 (.manual i o)).manual j = p.1.manual j :=
          (manualStep_frame p.1 i o).2.2 j hj
        simp only [History.after, setAt_ne _ _ hj, hother]
        exact h.manuals j
    | stream i o =>
      have hother : ((schedulerSystem d).next p.1 (.stream i o)).manual = p.1.manual :=
        (streamStep_frame p.1 i o).1
      simp only [History.after, hother]
      exact h.manuals j
    | admin i o =>
      have hother : ((schedulerSystem d).next p.1 (.admin i o)).manual = p.1.manual :=
        (adminStep_frame p.1 i o).2.1
      simp only [History.after, hother]
      exact h.manuals j
    | advance ms => exact h.manuals j
  · exact next_held h.admins trivial (fun _ => trivial) (fun _ => interval_pos_of_valid)
      (fun _ _ => trivial) o
  · intro t input hmem
    cases mem_append.mp hmem with
    | inl hold => exact h.handed t input hold
    | inr hnew =>
      obtain ⟨t', ht', heq⟩ := mem_map.mp hnew
      simp only [Prod.mk.injEq] at heq
      obtain ⟨rfl, hinput⟩ := heq
      cases o with
      | stream i o =>
        obtain ⟨batch, hbatch, hok⟩ := delivered_tick h ht'
        obtain ⟨input', hinput', htick, -⟩ := hok.tick hbatch
        have hsame : input = input' := Option.some.inj (hinput.symm.trans hinput')
        rw [hsame]
        exact htick
      | _ => cases hinput

end Promin.Scheduler

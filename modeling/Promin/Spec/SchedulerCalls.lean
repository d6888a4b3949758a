import Promin.Scheduler.DurableScheduler

/-!
# What the calls on the scheduler storage do

One lemma for each call that has several outcomes, and what no call but the lease
calls and `advance` touches: the leases and the clock.
-/

namespace Promin.Scheduler

namespace InMemorySchedulerStorage

/-! ## Commits -/

variable (s : InMemorySchedulerStorage)

theorem commitEntry_cases (u : ScheduleCommit) :
    (mismatched u (s.loadScheduleState u.id) = true ∧ s.commitEntry u = (s, true)) ∨
    (∃ cfg state, s.schedules.get u.id = some cfg ∧ s.state.get u.id = some state ∧
      mismatched u (some state) = false ∧ s.commitEntry u = (s.applyCommit u cfg state, false)) ∨
    (s.loadScheduleState u.id = none ∧ mismatched u none = false ∧
      s.commitEntry u = ({ s with nextRun := s.nextRun.delete u.id }, false)) := by
  have hload : s.loadScheduleState u.id =
      if (s.schedules.get u.id).isSome then s.state.get u.id else none := rfl
  simp only [commitEntry, hload]
  cases hcfg : s.schedules.get u.id with
  | none =>
    cases hm : mismatched u none with
    | true | false => simp [hm]
  | some cfg =>
    cases hstate : s.state.get u.id with
    | none =>
      cases hm : mismatched u none with
      | true | false => simp [hm]
    | some state =>
      cases hm : mismatched u (some state) with
      | true | false => simp [hm]

variable (updates : List ScheduleCommit) (lease : Option LeaderLease)

theorem commitPoll_cases :
    (∃ l e, lease = some l ∧ s.leases.assertCurrent l = .error e ∧
      s.commitPoll updates lease = (s, .error e)) ∨
    ((∀ l, lease = some l → s.leases.assertCurrent l = .ok ()) ∧
      s.commitPoll updates lease =
        ((s.commitEntries updates).1, .ok (s.commitEntries updates).2)) := by
  simp only [commitPoll]
  cases lease with
  | none =>
    right
    exact ⟨nofun, rfl⟩
  | some l =>
    cases hfence : s.leases.assertCurrent l with
    | error e =>
      left
      exact ⟨l, e, rfl, hfence, by simp [hfence]⟩
    | ok ok =>
      right
      refine ⟨fun l' hl' => ?_, by simp [hfence]⟩
      cases hl'
      exact hfence

theorem commitEntries_induction {P : InMemorySchedulerStorage → Prop}
    (hentry : ∀ s, ∀ u ∈ updates, P s → P (s.commitEntry u).1)
    {s : InMemorySchedulerStorage} (hs : P s) : P (s.commitEntries updates).1 := by
  induction updates generalizing s with
  | nil => exact hs
  | cons u rest ih =>
    have hrest : ∀ t, ∀ v ∈ rest, P t → P (t.commitEntry v).1 :=
      fun t v hv => hentry t v (List.mem_cons_of_mem _ hv)
    exact ih hrest (hentry s u List.mem_cons_self hs)

theorem commitPoll_schedules : (s.commitPoll updates lease).1.schedules = s.schedules := by
  obtain ⟨l, e, -, -, h⟩ | ⟨-, h⟩ := commitPoll_cases s updates lease
  · rw [h]
  · rw [h]
    apply commitEntries_induction (P := fun t => t.schedules = s.schedules) updates
    · intro t u _ ht
      obtain ⟨-, hu⟩ | ⟨cfg, state, -, -, -, hu⟩ | ⟨-, -, hu⟩ := commitEntry_cases t u
      · rw [hu]
        exact ht
      · rw [hu]
        exact ht
      · rw [hu]
        exact ht
    · rfl

/-! ## Loads -/

variable {id : String}

theorem state_of_loadScheduleState {s : InMemorySchedulerStorage}
    {state : ScheduleState} (h : s.loadScheduleState id = some state) :
    s.state.get id = some state := by
  simp only [loadScheduleState] at h
  split at h
  · exact h
  · cases h

theorem loadSchedules_get {s : InMemorySchedulerStorage} {ids : List String}
    {config : DurableScheduleConfig} (h : (s.loadSchedules ids).get id = some config) :
    s.schedules.get id = some config :=
  JsMap.of_get_ofKeys h

theorem loadScheduleStates_get {s : InMemorySchedulerStorage} {ids : List String}
    {state : ScheduleState} (h : (s.loadScheduleStates ids).get id = some state) :
    s.state.get id = some state :=
  state_of_loadScheduleState (JsMap.of_get_ofKeys h)

/-! ## What the admin calls store -/

variable (config : DurableScheduleConfig)

@[simp] theorem seedNextRun_schedules : (s.seedNextRun config).schedules = s.schedules := by
  simp only [seedNextRun]
  split <;> rfl

@[simp] theorem seedNextRun_state : (s.seedNextRun config).state = s.state := by
  simp only [seedNextRun]
  split <;> rfl

@[simp] theorem seedNextRun_ticks : (s.seedNextRun config).ticks = s.ticks := by
  simp only [seedNextRun]
  split <;> rfl

@[simp] theorem upsertSchedule_schedules (token : String) :
    (s.upsertSchedule config token).schedules =
      s.schedules.set config.id { config with enabled := some config.isEnabled } := by
  simp only [upsertSchedule]
  split <;> simp

@[simp] theorem upsertSchedule_state (token : String) :
    (s.upsertSchedule config token).state =
      s.state.set config.id (upsertedState (s.state.get config.id) token) := by
  simp only [upsertSchedule]
  split <;> simp

@[simp] theorem upsertSchedule_ticks (token : String) :
    (s.upsertSchedule config token).ticks = s.ticks := by
  simp only [upsertSchedule]
  split <;> simp

@[simp] theorem setEnabled_state (id : String)
    (enabled : Bool) : (s.setEnabled id enabled).state = s.state := by
  simp only [setEnabled]
  split
  · rfl
  · split <;> simp

@[simp] theorem setEnabled_ticks (id : String)
    (enabled : Bool) : (s.setEnabled id enabled).ticks = s.ticks := by
  simp only [setEnabled]
  split
  · rfl
  · split <;> simp

theorem setEnabled_schedules (id : String) (enabled : Bool) :
    (s.setEnabled id enabled).schedules =
      match s.schedules.get id with
      | none => s.schedules
      | some cfg => s.schedules.set id { cfg with enabled := some enabled } := by
  cases h : s.schedules.get id with
  | none => simp [setEnabled, h]
  | some cfg =>
    simp only [setEnabled, h]
    cases enabled <;> simp

/-! ## Leases and the clock -/

theorem assertCurrent_ok_iff {l : InMemoryLeaderLeases} {lease : LeaderLease} :
    l.assertCurrent lease = .ok () ↔
      ∃ record, l.records.get lease.key = some record ∧ record.epoch = lease.epoch := by
  have hcurrent : l.currentEpoch lease.key = some lease.epoch ↔
      ∃ record, l.records.get lease.key = some record ∧ record.epoch = lease.epoch :=
    Option.map_eq_some_iff
  rw [← hcurrent]
  simp only [InMemoryLeaderLeases.assertCurrent]
  by_cases h : l.currentEpoch lease.key = some lease.epoch
  · simp [h]
  · simp [h]

def SameLeases (s s' : InMemorySchedulerStorage) : Prop :=
  s'.leases = s.leases ∧ s'.now = s.now

theorem commitEntry_sameLeases (u : ScheduleCommit) :
    SameLeases s (s.commitEntry u).1 := by
  obtain ⟨-, h⟩ | ⟨cfg, state, -, -, -, h⟩ | ⟨-, -, h⟩ := commitEntry_cases s u
  · rw [h]
    exact ⟨rfl, rfl⟩
  · rw [h]
    exact ⟨rfl, rfl⟩
  · rw [h]
    exact ⟨rfl, rfl⟩

theorem commitPoll_sameLeases : SameLeases s (s.commitPoll updates lease).1 := by
  obtain ⟨l, e, -, -, h⟩ | ⟨-, h⟩ := commitPoll_cases s updates lease
  · rw [h]
    exact ⟨rfl, rfl⟩
  · rw [h]
    apply commitEntries_induction (P := fun t => SameLeases s t) updates
    · intro t u _ ht
      have hu := commitEntry_sameLeases t u
      exact ⟨hu.1.trans ht.1, hu.2.trans ht.2⟩
    · exact ⟨rfl, rfl⟩

theorem seedNextRun_sameLeases :
    SameLeases s (s.seedNextRun config) := by
  simp only [seedNextRun]
  split <;> exact ⟨rfl, rfl⟩

theorem upsertSchedule_sameLeases (token : String) :
    SameLeases s (s.upsertSchedule config token) := by
  simp only [upsertSchedule]
  split
  · exact ⟨rfl, rfl⟩
  · exact seedNextRun_sameLeases _ config

theorem setEnabled_sameLeases (id : String) (enabled : Bool) :
    SameLeases s (s.setEnabled id enabled) := by
  simp only [setEnabled]
  split
  · exact ⟨rfl, rfl⟩
  · split
    · exact ⟨rfl, rfl⟩
    · exact seedNextRun_sameLeases _ _

end InMemorySchedulerStorage

open InMemorySchedulerStorage

def OnLeasesOrClock : SchedulerStorageOp → Prop
  | .advance _ => True
  | .tryAcquireLeader _ _ _ => True
  | .releaseLeader _ => True
  | _ => False

theorem leases_unchanged {s : InMemorySchedulerStorage} {o : SchedulerStorageOp}
    (h : ¬ OnLeasesOrClock o) : SameLeases s (schedulerStorage.next s o) := by
  cases o with
  | advance ms | tryAcquireLeader key instanceId ttlMs | releaseLeader lease =>
    exact absurd trivial h
  | commitPoll updates lease => exact commitPoll_sameLeases s updates lease
  | upsertSchedule config token => exact upsertSchedule_sameLeases s config token
  | insertSchedule config token =>
    show SameLeases s (s.insertSchedule config token).1
    simp only [insertSchedule]
    split
    · exact ⟨rfl, rfl⟩
    · exact upsertSchedule_sameLeases s config token
  | deleteSchedule id => exact ⟨rfl, rfl⟩
  | setEnabled id enabled => exact setEnabled_sameLeases s id enabled
  | setNextRun id nextRun => cases nextRun <;> exact ⟨rfl, rfl⟩
  | recordFire id firedAt count =>
    show SameLeases s (s.recordFire id firedAt count)
    simp only [recordFire]
    split <;> exact ⟨rfl, rfl⟩

theorem now_le_next (s : InMemorySchedulerStorage) (o : SchedulerStorageOp) :
    s.now ≤ (schedulerStorage.next s o).now := by
  by_cases h : OnLeasesOrClock o
  · cases o with
    | advance ms =>
      show s.now ≤ s.now + ms
      omega
    | tryAcquireLeader key instanceId ttlMs | releaseLeader lease => exact Int.le_refl _
    | _ => exact h.elim
  · exact Int.le_of_eq (leases_unchanged h).2.symm

end Promin.Scheduler

/-!
## What a poll plans for one schedule

Ticks are numbered from the count of the state that was loaded, within its
incarnation.
-/

namespace Promin.Scheduler

theorem numberTicks_length (config : DurableScheduleConfig) (firedAt : Int)
    (incarnation : String) (tickCount : Nat) (occurrences : List Int) :
    (numberTicks config firedAt incarnation tickCount occurrences).length =
      occurrences.length := by
  simp [numberTicks]

theorem numberTicks_numbers (config : DurableScheduleConfig) (firedAt : Int)
    (incarnation : String) (tickCount : Nat) (occurrences : List Int) :
    (numberTicks config firedAt incarnation tickCount occurrences).map (·.tickNumber) =
      List.range' tickCount occurrences.length := by
  apply List.ext_getElem
  · simp [numberTicks]
  · intro i h₁ h₂
    simp [numberTicks, makeTick]

theorem numberTicks_incarnation {config : DurableScheduleConfig} {firedAt : Int}
    {incarnation : String} {tickCount : Nat} {occurrences : List Int} {t : ScheduleTick}
    (h : t ∈ numberTicks config firedAt incarnation tickCount occurrences) :
    t.incarnation = incarnation := by
  simp only [numberTicks, List.mem_map] at h
  obtain ⟨p, -, hp⟩ := h
  rw [← hp]
  rfl

theorem planDueTick_cases (cal : Calendar) (config : Option DurableScheduleConfig)
    (state : Option ScheduleState) (now : Int) (random : Rat) (id : String) :
    (planDueTick cal config state now random id = dropPlan id ∧
      ∀ cfg st, config = some cfg → state = some st → cfg.isEnabled = false) ∨
    (∃ cfg st e, config = some cfg ∧ state = some st ∧ cfg.isEnabled = true ∧
      planSchedule cal cfg st now random = .error e ∧
      planDueTick cal config state now random id = errorPlan id st e now) ∨
    (∃ cfg st occurrences nextRun, config = some cfg ∧ state = some st ∧
      cfg.isEnabled = true ∧ dueOccurrences cal cfg st.lastFired now = .ok occurrences ∧
      computeNextRun cal cfg now = .ok nextRun ∧
      planDueTick cal config state now random id = duePlan id st
        (numberTicks cfg now st.incarnation st.tickCount occurrences)
        (jitterNextRun cfg nextRun random)) := by
  cases config with
  | none => exact .inl ⟨rfl, fun _ _ hc => nomatch hc⟩
  | some cfg =>
    cases state with
    | none => exact .inl ⟨rfl, fun _ _ _ hs => nomatch hs⟩
    | some st =>
      cases henabled : cfg.isEnabled with
      | false =>
        left
        constructor
        · simp [planDueTick, henabled]
        · intro c t hc _
          cases hc
          exact henabled
      | true =>
        right
        cases hdue : dueOccurrences cal cfg st.lastFired now with
        | error e =>
          left
          have hplan : planSchedule cal cfg st now random = .error e := by
            simp [planSchedule, computeDueTicks, hdue, Except.map, bind, Except.bind]
          exact ⟨cfg, st, e, rfl, rfl, henabled, hplan, by simp [planDueTick, henabled, hplan]⟩
        | ok occurrences =>
          cases hnext : computeNextRun cal cfg now with
          | error e =>
            left
            have hplan : planSchedule cal cfg st now random = .error e := by
              simp [planSchedule, computeDueTicks, hdue, hnext, Except.map, bind, Except.bind]
            exact ⟨cfg, st, e, rfl, rfl, henabled, hplan, by simp [planDueTick, henabled, hplan]⟩
          | ok nextRun =>
            right
            have hplan : planSchedule cal cfg st now random =
                .ok (numberTicks cfg now st.incarnation st.tickCount occurrences,
                  jitterNextRun cfg nextRun random) := by
              simp [planSchedule, computeDueTicks, hdue, hnext, Except.map, bind, Except.bind,
                pure, Except.pure]
            exact ⟨cfg, st, occurrences, nextRun, rfl, rfl, henabled, hdue, hnext,
              by simp [planDueTick, henabled, hplan]⟩

end Promin.Scheduler

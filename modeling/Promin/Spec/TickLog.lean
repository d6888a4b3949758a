import Promin.ForStd.Text
import Promin.Spec.SchedulerCalls

/-!
# The tick log is dense

Every commit a poll or a manual fire builds numbers its ticks from the count it
expects, within the incarnation it expects.
-/

namespace Promin.Scheduler

open InMemorySchedulerStorage List JsMap Machine

/-! ## Commits built by a plan -/

/-- The commits `planDueTicks` and `fireManually` build, from whatever was loaded. -/
inductive BuiltByPlan (cal : Calendar) : ScheduleCommit → Prop
  | poll (ids : List String) (configs : JsMap String DurableScheduleConfig)
      (states : JsMap String ScheduleState) (now : Int) (random : String → Rat)
      (plan : PlannedSchedule) (h : plan ∈ planDueTicks cal ids configs states now random) :
      BuiltByPlan cal plan.commit
  | manual (id : String) (config : DurableScheduleConfig) (state : ScheduleState) (now : Int)
      (occurrences : List Int) (h : occurrences ≠ []) :
      BuiltByPlan cal
        (manualCommit id state now (manualTicks id config state now occurrences))

/-- The entry adds no ticks, or ticks that continue the count and the incarnation it
    is guarded by. -/
def Continues (u : ScheduleCommit) : Prop :=
  (u.ticks = [] ∧ u.tickIncrement = none) ∨
    ∃ base incarnation, u.ticks ≠ [] ∧ u.expectedTickCount = some base ∧
      u.expectedIncarnation = some incarnation ∧ u.firedAt.isSome ∧
      u.tickIncrement = some u.ticks.length ∧
      u.ticks.map (·.tickNumber) = List.range' base u.ticks.length ∧
      ∀ t ∈ u.ticks, t.incarnation = incarnation

theorem duePlan_continues (id : String) (cfg : DurableScheduleConfig) (st : ScheduleState)
    (now : Int) (occurrences : List Int) (nextRun : Option Int) :
    Continues (duePlan id st (numberTicks cfg now st.incarnation st.tickCount occurrences)
      nextRun).commit := by
  have hlen := numberTicks_length cfg now st.incarnation st.tickCount occurrences
  cases occurrences with
  | nil =>
    left
    exact ⟨rfl, rfl⟩
  | cons o rest =>
    right
    have hpos : 0 < (numberTicks cfg now st.incarnation st.tickCount (o :: rest)).length := by
      rw [hlen]
      simp
    refine ⟨st.tickCount, st.incarnation, ne_nil_of_length_pos hpos, ?_, ?_, ?_, ?_, ?_, ?_⟩
    · simp [duePlan, hpos]
    · simp [duePlan, hpos]
    · simp only [duePlan, Option.isSome_map]
      exact getLast?_isSome.mpr (ne_nil_of_length_pos hpos)
    · simp [duePlan, hpos]
    · show (numberTicks cfg now st.incarnation st.tickCount (o :: rest)).map
        (·.tickNumber) = List.range' st.tickCount
          (numberTicks cfg now st.incarnation st.tickCount (o :: rest)).length
      rw [numberTicks_numbers, hlen]
    · exact fun t ht => numberTicks_incarnation ht

variable {u : ScheduleCommit}

theorem BuiltByPlan.continues {cal : Calendar} (h : BuiltByPlan cal u) :
    Continues u := by
  cases h with
  | poll ids configs states now random plan h =>
    obtain ⟨id, -, rfl⟩ := mem_map.mp h
    obtain ⟨hplan, -⟩ | ⟨cfg, st, e, -, -, -, -, hplan⟩ |
      ⟨cfg, st, occurrences, nextRun, -, -, -, -, -, hplan⟩ :=
      planDueTick_cases cal (configs.get id) (states.get id) now (random id) id
    · rw [hplan]
      exact .inl ⟨rfl, rfl⟩
    · rw [hplan]
      exact .inl ⟨rfl, rfl⟩
    · rw [hplan]
      exact duePlan_continues id cfg st now occurrences _
  | manual id config state now occurrences h =>
    right
    have hlen : (manualTicks id config state now occurrences).length = occurrences.length :=
      numberTicks_length _ _ _ _ _
    refine ⟨state.tickCount, state.incarnation, ?_, rfl, rfl, rfl, rfl, ?_, ?_⟩
    · apply ne_nil_of_length_pos
      show 0 < (manualTicks id config state now occurrences).length
      rw [hlen]
      exact length_pos_iff.mpr h
    · show (manualTicks id config state now occurrences).map (·.tickNumber) =
        List.range' state.tickCount (manualTicks id config state now occurrences).length
      rw [hlen]
      exact numberTicks_numbers _ _ _ _ _
    · exact fun t ht => numberTicks_incarnation ht

/-! ## The log of one schedule -/

/-- The committed ticks of a schedule. -/
def logOf (s : InMemorySchedulerStorage) (id : String) : List ScheduleTick :=
  (s.ticks.get id).getD []

/-- The log holds exactly the ticks `0 … tickCount - 1` of the incarnation, in order. -/
def Dense (log : List ScheduleTick) (state : ScheduleState) : Prop :=
  log.map (·.tickNumber) = List.range state.tickCount ∧
    ∀ t ∈ log, t.incarnation = state.incarnation

theorem Dense.appendTicks_eq {log ticks : List ScheduleTick} {state : ScheduleState}
    (h : Dense log state)
    (hnumbers : ticks.map (·.tickNumber) = List.range' state.tickCount ticks.length)
    (hinc : ∀ t ∈ ticks, t.incarnation = state.incarnation) :
    appendTicks log ticks = log ++ ticks := by
  simp only [appendTicks]
  congr 1
  apply filter_eq_self.mpr
  intro t ht
  rw [Bool.not_eq_true', ← Bool.not_eq_true, contains_iff_mem, mem_map]
  intro ⟨t', ht', hkey⟩
  -- within one incarnation the dedupe key is the number
  have hnumber : t'.tickNumber = t.tickNumber := by
    simp only [tickKey, h.2 t' ht', hinc t ht] at hkey
    exact Nat.append_toString_inj _ hkey
  have hlogged : t'.tickNumber < state.tickCount := by
    have hmem : t'.tickNumber ∈ log.map (·.tickNumber) := mem_map_of_mem ht'
    rw [h.1] at hmem
    exact mem_range.mp hmem
  have hnew : state.tickCount ≤ t.tickNumber := by
    have hmem : t.tickNumber ∈ ticks.map (·.tickNumber) := mem_map_of_mem ht
    rw [hnumbers] at hmem
    exact (mem_range'_1.mp hmem).1
  omega

theorem Dense.append {log ticks : List ScheduleTick} {state state' : ScheduleState}
    (h : Dense log state)
    (hnumbers : ticks.map (·.tickNumber) = List.range' state.tickCount ticks.length)
    (hinc : ∀ t ∈ ticks, t.incarnation = state.incarnation)
    (hcount : state'.tickCount = state.tickCount + ticks.length)
    (hsame : state'.incarnation = state.incarnation) : Dense (log ++ ticks) state' := by
  constructor
  · rw [map_append, h.1, hnumbers, hcount, range_eq_range', range_eq_range']
    simpa using range'_append_1 (s := 0) (m := state.tickCount) (n := ticks.length)
  · intro t ht
    rw [hsame]
    cases mem_append.mp ht with
    | inl hold => exact h.2 t hold
    | inr hnew => exact hinc t hnew

theorem mismatched_eq_false_iff (u : ScheduleCommit) (state : ScheduleState) :
    mismatched u (some state) = false ↔
      (∀ n, u.expectedTickCount = some n → state.tickCount = n) ∧
        (∀ i, u.expectedIncarnation = some i → state.incarnation = i) := by
  simp only [mismatched]
  cases u.expectedTickCount <;> cases u.expectedIncarnation <;> grind

theorem committedState_incarnation (u : ScheduleCommit) (state : ScheduleState) :
    (committedState u state).incarnation = state.incarnation := by
  simp only [committedState]
  cases u.firedAt <;> cases u.tickIncrement <;> cases u.lastError <;>
    simp only [] <;> (try split) <;> rfl

theorem committedState_tickCount (u : ScheduleCommit) (state : ScheduleState) :
    (committedState u state).tickCount =
      state.tickCount + (if u.firedAt.isSome then u.tickIncrement.getD 0 else 0) := by
  simp only [committedState]
  cases u.firedAt with
  | none => cases u.lastError <;> simp
  | some firedAt =>
    cases u.tickIncrement with
    | none => cases u.lastError <;> simp
    | some n =>
      cases n with
      | zero | succ n => cases u.lastError <;> simp

/-! ## The logs of a storage -/

structure LogDense (s : InMemorySchedulerStorage) : Prop where
  stored : ∀ id, (s.schedules.get id).isSome = (s.state.get id).isSome
  dense : ∀ id state, s.state.get id = some state → Dense (logOf s id) state
  empty : ∀ id, s.state.get id = none → logOf s id = []

def SameFires (s s' : InMemorySchedulerStorage) : Prop :=
  (∀ id, (s'.schedules.get id).isSome = (s.schedules.get id).isSome) ∧
    s'.state = s.state ∧ s'.ticks = s.ticks

theorem LogDense.of_sameFires {s s' : InMemorySchedulerStorage} (h : LogDense s)
    (hsame : SameFires s s') : LogDense s' := by
  obtain ⟨hstored, hstate, hticks⟩ := hsame
  have hlog : ∀ id, logOf s' id = logOf s id := fun id => by simp only [logOf, hticks]
  constructor
  · intro id
    rw [hstored, hstate]
    exact h.stored id
  · intro id state hs
    rw [hlog]
    exact h.dense id state (hstate ▸ hs)
  · intro id hs
    rw [hlog]
    exact h.empty id (hstate ▸ hs)

theorem applyCommit_ne (s : InMemorySchedulerStorage)
    (cfg : DurableScheduleConfig) (state : ScheduleState) {id : String} (h : u.id ≠ id) :
    (s.applyCommit u cfg state).state.get id = s.state.get id ∧
      logOf (s.applyCommit u cfg state) id = logOf s id := by
  simp only [applyCommit, logOf]
  constructor
  · exact get_set_ne _ _ h
  · split
    · rfl
    · rw [get_set_ne _ _ h]

theorem applyCommit_log (s : InMemorySchedulerStorage) (u : ScheduleCommit)
    (cfg : DurableScheduleConfig) (state : ScheduleState) :
    logOf (s.applyCommit u cfg state) u.id =
      if u.ticks.isEmpty then logOf s u.id else appendTicks (logOf s u.id) u.ticks := by
  simp only [applyCommit, logOf]
  split
  · rfl
  · simp

variable {s : InMemorySchedulerStorage}

theorem LogDense.commitEntry
    (h : LogDense s) (hu : Continues u) : LogDense (s.commitEntry u).1 := by
  obtain ⟨-, heq⟩ | ⟨cfg, state, hcfg, hstate, hguard, heq⟩ | ⟨-, -, heq⟩ := commitEntry_cases s u
  · rw [heq]
    exact h
  · rw [heq]
    obtain ⟨hcount, hinc⟩ := (mismatched_eq_false_iff u state).mp hguard
    have hsame := committedState_incarnation u state
    constructor
    · intro id
      show (s.schedules.get id).isSome =
        ((s.state.set u.id (committedState u state)).get id).isSome
      rw [h.stored id, get_set]
      split
      · rename_i hid
        rw [← hid, hstate]
        rfl
      · rfl
    · intro id st hst
      by_cases hid : u.id = id
      · subst hid
        have hst' : st = committedState u state := by
          simp only [applyCommit, get_set_self, Option.some.injEq] at hst
          exact hst.symm
        rw [hst', applyCommit_log]
        have hold := h.dense u.id state hstate
        cases hu with
        | inl hnone =>
          -- no ticks: count and log stay
          have hcount' : (committedState u state).tickCount = state.tickCount := by
            rw [committedState_tickCount, hnone.2]
            simp
          simp only [hnone.1, isEmpty_nil, ↓reduceIte]
          exact ⟨by rw [hcount']; exact hold.1, by rw [hsame]; exact hold.2⟩
        | inr hticks =>
          obtain ⟨base, incarnation, hne, hbase, hinc', hfired, hincr, hnumbers, hticksInc⟩ :=
            hticks
          have hb : state.tickCount = base := hcount base hbase
          have hi : state.incarnation = incarnation := hinc incarnation hinc'
          subst hb
          subst hi
          have hcount' : (committedState u state).tickCount =
              state.tickCount + u.ticks.length := by
            rw [committedState_tickCount, hincr]
            simp [hfired]
          have hempty : u.ticks.isEmpty = false := by simpa using hne
          simp only [hempty, Bool.false_eq_true, ↓reduceIte]
          rw [hold.appendTicks_eq hnumbers hticksInc]
          exact hold.append hnumbers hticksInc hcount' hsame
      · obtain ⟨hst', hlog⟩ := applyCommit_ne s cfg state hid
        rw [hlog]
        exact h.dense id st (hst' ▸ hst)
    · intro id hnone
      by_cases hid : u.id = id
      · subst hid
        simp [applyCommit] at hnone
      · obtain ⟨hst', hlog⟩ := applyCommit_ne s cfg state hid
        rw [hlog]
        exact h.empty id (hst' ▸ hnone)
  · rw [heq]
    exact h.of_sameFires ⟨fun _ => rfl, rfl, rfl⟩

theorem LogDense.upsertSchedule (h : LogDense s) (config : DurableScheduleConfig) (token : String) :
    LogDense (s.upsertSchedule config token) := by
  have hlog : ∀ id, logOf (s.upsertSchedule config token) id = logOf s id := by
    intro id
    simp [logOf]
  constructor
  · intro id
    simp only [upsertSchedule_schedules, upsertSchedule_state, get_set]
    split
    · rfl
    · exact h.stored id
  · intro id st hst
    rw [hlog]
    simp only [upsertSchedule_state, get_set] at hst
    split at hst
    · rename_i hid
      subst hid
      cases hst
      cases hprev : s.state.get config.id with
      | none =>
        -- an insert starts at count 0, and the id had no log
        rw [h.empty config.id hprev]
        exact ⟨rfl, fun t ht => absurd ht not_mem_nil⟩
      | some prev => exact h.dense config.id prev hprev
    · exact h.dense id st hst
  · intro id hnone
    rw [hlog]
    simp only [upsertSchedule_state, get_set] at hnone
    split at hnone
    · cases hnone
    · exact h.empty id hnone

theorem LogDense.deleteSchedule (h : LogDense s) (id : String) :
    LogDense (s.deleteSchedule id) := by
  have hlog : ∀ id', logOf (s.deleteSchedule id) id' = if id = id' then [] else logOf s id' := by
    intro id'
    simp only [logOf, InMemorySchedulerStorage.deleteSchedule, get_delete]
    split <;> rfl
  constructor
  · intro id'
    simp only [InMemorySchedulerStorage.deleteSchedule, get_delete]
    split
    · rfl
    · exact h.stored id'
  · intro id' st hst
    simp only [InMemorySchedulerStorage.deleteSchedule, get_delete] at hst
    split at hst
    · cases hst
    · rename_i hid
      rw [hlog, if_neg hid]
      exact h.dense id' st hst
  · intro id' hnone
    rw [hlog]
    split
    · rfl
    · rename_i hid
      simp only [InMemorySchedulerStorage.deleteSchedule, get_delete, if_neg hid] at hnone
      exact h.empty id' hnone

/-- The calls that keep count and log together: commits built by a plan, and every call
    that does not write fire state on its own. -/
def KeepsLog (cal : Calendar) : SchedulerStorageOp → Prop
  | .commitPoll updates _ => ∀ u ∈ updates, BuiltByPlan cal u
  | .recordFire _ _ _ => False
  | _ => True

theorem LogDense.next {cal : Calendar} (o : SchedulerStorageOp)
    (ho : KeepsLog cal o) (h : LogDense s) : LogDense (schedulerStorage.next s o) := by
  cases o with
  | advance ms | tryAcquireLeader key instanceId ttlMs | releaseLeader lease =>
    exact h.of_sameFires ⟨fun _ => rfl, rfl, rfl⟩
  | commitPoll updates lease =>
    show LogDense (s.commitPoll updates lease).1
    obtain ⟨l, e, -, -, heq⟩ | ⟨-, heq⟩ := commitPoll_cases s updates lease
    · rw [heq]
      exact h
    · rw [heq]
      apply commitEntries_induction (P := LogDense) updates
      · exact fun t u hu ht => ht.commitEntry (ho u hu).continues
      · exact h
  | upsertSchedule config token => exact h.upsertSchedule config token
  | insertSchedule config token =>
    show LogDense (s.insertSchedule config token).1
    simp only [insertSchedule]
    split
    · exact h
    · exact h.upsertSchedule config token
  | deleteSchedule id => exact h.deleteSchedule id
  | setEnabled id enabled =>
    refine h.of_sameFires ⟨fun id' => ?_, setEnabled_state s id enabled,
      setEnabled_ticks s id enabled⟩
    show ((s.setEnabled id enabled).schedules.get id').isSome = (s.schedules.get id').isSome
    rw [setEnabled_schedules]
    cases hcfg : s.schedules.get id with
    | none => rfl
    | some cfg =>
      simp only [get_set]
      split
      · rename_i hid
        rw [← hid, hcfg]
        rfl
      · rfl
  | setNextRun id nextRun =>
    cases nextRun <;> exact h.of_sameFires ⟨fun _ => rfl, rfl, rfl⟩
  | recordFire id firedAt count => exact ho.elim

/-! ## Counts within an incarnation -/

/-- The incarnation a call starts. -/
def issuedIncarnation (s : InMemorySchedulerStorage) : SchedulerStorageOp → List String
  | .upsertSchedule config token => if (s.state.get config.id).isSome then [] else [token]
  | .insertSchedule config token =>
    if s.schedules.has config.id || (s.state.get config.id).isSome then [] else [token]
  | _ => []

/-- A fire state after a call continues the one before within its incarnation, or
    starts an incarnation under the token the call took. -/
def FireStep (s : InMemorySchedulerStorage) (o : SchedulerStorageOp) (id : String)
    (st' : ScheduleState) : Prop :=
  (∃ st, s.state.get id = some st ∧ st'.incarnation = st.incarnation ∧
    st.tickCount ≤ st'.tickCount) ∨ st'.incarnation ∈ issuedIncarnation s o

def ContinuesFrom (s t : InMemorySchedulerStorage) : Prop :=
  ∀ id st', t.state.get id = some st' → ∃ st, s.state.get id = some st ∧
    st'.incarnation = st.incarnation ∧ st.tickCount ≤ st'.tickCount

theorem ContinuesFrom.refl (s : InMemorySchedulerStorage) : ContinuesFrom s s :=
  fun _ st hst => ⟨st, hst, rfl, Nat.le_refl _⟩

theorem ContinuesFrom.of_state_eq {s t : InMemorySchedulerStorage} (h : t.state = s.state) :
    ContinuesFrom s t := by
  intro id st hst
  rw [h] at hst
  exact ⟨st, hst, rfl, Nat.le_refl _⟩

theorem ContinuesFrom.trans {s t u : InMemorySchedulerStorage} (h : ContinuesFrom s t)
    (h' : ContinuesFrom t u) : ContinuesFrom s u := by
  intro id st hst
  obtain ⟨st₁, hst₁, hinc₁, hle₁⟩ := h' id st hst
  obtain ⟨st₂, hst₂, hinc₂, hle₂⟩ := h id st₁ hst₁
  exact ⟨st₂, hst₂, hinc₁.trans hinc₂, Nat.le_trans hle₂ hle₁⟩

theorem commitEntry_continuesFrom (s : InMemorySchedulerStorage) (u : ScheduleCommit) :
    ContinuesFrom s (s.commitEntry u).1 := by
  obtain ⟨-, heq⟩ | ⟨cfg, state, -, hstate, -, heq⟩ | ⟨-, -, heq⟩ := commitEntry_cases s u
  · rw [heq]
    exact .refl s
  · rw [heq]
    intro id st hst
    by_cases hid : u.id = id
    · subst hid
      have hst' : st = committedState u state := by
        simp only [applyCommit, get_set_self, Option.some.injEq] at hst
        exact hst.symm
      refine ⟨state, hstate, ?_, ?_⟩
      · rw [hst', committedState_incarnation]
      · rw [hst', committedState_tickCount]
        omega
    · rw [(applyCommit_ne s cfg state hid).1] at hst
      exact ⟨st, hst, rfl, Nat.le_refl _⟩
  · rw [heq]
    exact .of_state_eq rfl

private theorem upsertSchedule_fireStep
    {config : DurableScheduleConfig} {token id : String} {st' : ScheduleState}
    (h : (s.upsertSchedule config token).state.get id = some st') :
    (∃ st, s.state.get id = some st ∧ st'.incarnation = st.incarnation ∧
      st.tickCount ≤ st'.tickCount) ∨
    (s.state.get config.id = none ∧ st'.incarnation = token) := by
  simp only [upsertSchedule_state, get_set] at h
  split at h
  · rename_i hid
    subst hid
    cases h
    cases hprev : s.state.get config.id with
    | none => exact .inr ⟨rfl, rfl⟩
    | some prev => exact .inl ⟨prev, rfl, rfl, Nat.le_refl _⟩
  · exact .inl ⟨st', h, rfl, Nat.le_refl _⟩

theorem fireStep (s : InMemorySchedulerStorage) (o : SchedulerStorageOp) (id : String)
    (st' : ScheduleState) (h : (schedulerStorage.next s o).state.get id = some st') :
    FireStep s o id st' := by
  cases o with
  | advance ms | tryAcquireLeader key instanceId ttlMs | releaseLeader lease =>
    exact .inl ⟨st', h, rfl, Nat.le_refl _⟩
  | commitPoll updates lease =>
    left
    have hcommit : ContinuesFrom s (s.commitPoll updates lease).1 := by
      obtain ⟨l, e, -, -, heq⟩ | ⟨-, heq⟩ := commitPoll_cases s updates lease
      · rw [heq]
        exact .refl s
      · rw [heq]
        apply commitEntries_induction (P := ContinuesFrom s) updates
        · exact fun t u _ ht => ht.trans (commitEntry_continuesFrom t u)
        · exact .refl s
    exact hcommit id st' h
  | upsertSchedule config token =>
    cases upsertSchedule_fireStep h with
    | inl hkept => exact .inl hkept
    | inr hnew =>
      right
      simp [issuedIncarnation, hnew.1, hnew.2]
  | insertSchedule config token =>
    have hinsert : (s.insertSchedule config token).1.state.get id = some st' := h
    simp only [insertSchedule] at hinsert
    split at hinsert
    · exact .inl ⟨st', hinsert, rfl, Nat.le_refl _⟩
    · rename_i hhas
      cases upsertSchedule_fireStep hinsert with
      | inl hkept => exact .inl hkept
      | inr hnew =>
        right
        simp [issuedIncarnation, hhas, hnew.1, hnew.2]
  | deleteSchedule id' =>
    left
    have hdel : (s.state.delete id').get id = some st' := h
    rw [get_delete] at hdel
    split at hdel
    · cases hdel
    · exact ⟨st', hdel, rfl, Nat.le_refl _⟩
  | setEnabled id' enabled =>
    have hset : (s.setEnabled id' enabled).state.get id = some st' := h
    rw [setEnabled_state] at hset
    exact .inl ⟨st', hset, rfl, Nat.le_refl _⟩
  | setNextRun id' nextRun => cases nextRun <;> exact .inl ⟨st', h, rfl, Nat.le_refl _⟩
  | recordFire id' firedAt count =>
    left
    have hrec : (s.recordFire id' firedAt count).state.get id = some st' := h
    simp only [recordFire] at hrec
    split at hrec
    · exact ⟨st', hrec, rfl, Nat.le_refl _⟩
    · rename_i prev hprev
      simp only [get_set] at hrec
      split at hrec
      · rename_i hid
        cases hrec
        exact ⟨prev, hid ▸ hprev, rfl, Nat.le_add_right _ _⟩
      · exact ⟨st', hrec, rfl, Nat.le_refl _⟩

theorem stored_incarnation_issued (now : Int) (os : List SchedulerStorageOp) (id : String)
    (st : ScheduleState) (h : (schedulerStorage.run (.new now) os).state.get id = some st) :
    st.incarnation ∈ schedulerStorage.trace issuedIncarnation (.new now) os := by
  induction os using List.reverseRecOn generalizing st with
  | nil => cases h
  | append_singleton os o ih =>
    rw [run_snoc] at h
    rw [trace_snoc]
    cases fireStep _ o id st h with
    | inl hkept =>
      obtain ⟨st₀, hst₀, hinc, -⟩ := hkept
      rw [hinc]
      exact mem_append_left _ (ih st₀ hst₀)
    | inr hnew => exact mem_append_right _ hnew

theorem tickCount_mono {now : Int} {before after : List SchedulerStorageOp} {id : String}
    {st st' : ScheduleState}
    (hfresh : (schedulerStorage.trace issuedIncarnation (.new now) (before ++ after)).Nodup)
    (hst : (schedulerStorage.run (.new now) before).state.get id = some st)
    (hst' : (schedulerStorage.run (.new now) (before ++ after)).state.get id = some st')
    (hinc : st'.incarnation = st.incarnation) : st.tickCount ≤ st'.tickCount := by
  rw [trace_append, nodup_append] at hfresh
  have hissued := stored_incarnation_issued now before id st hst
  have hlater : schedulerStorage.Always
      (fun s o => ∀ token ∈ issuedIncarnation s o, token ≠ st.incarnation)
      (schedulerStorage.run (.new now) before) after := by
    apply always_of_trace
    exact fun token htoken heq => hfresh.2.2 _ hissued _ htoken heq.symm
  rw [run_append] at hst'
  have hmono := run_induction_always (M := schedulerStorage)
    (P := fun s => ∀ x, s.state.get id = some x → x.incarnation = st.incarnation →
      st.tickCount ≤ x.tickCount) (fun s o hnew hs x hx hxinc => by
      cases fireStep s o id x hx with
      | inl hkept =>
        obtain ⟨y, hy, hyinc, hle⟩ := hkept
        exact Nat.le_trans (hs y hy (hyinc ▸ hxinc)) hle
      | inr hissue => exact absurd hxinc (hnew _ hissue)) hlater
  exact hmono (fun x hx _ => by
    rw [hst] at hx
    cases hx
    exact Nat.le_refl _) st' hst' hinc

/-! ## Rejected commits -/

/-- The entry expects a count or an incarnation the stored state does not show. -/
def GuardFails (u : ScheduleCommit) (state : Option ScheduleState) : Prop :=
  (∃ n, u.expectedTickCount = some n ∧ ∀ st, state = some st → st.tickCount ≠ n) ∨
    (∃ i, u.expectedIncarnation = some i ∧ ∀ st, state = some st → st.incarnation ≠ i)

theorem GuardFails.mismatched {state : Option ScheduleState}
    (h : GuardFails u state) : mismatched u state = true := by
  cases state with
  | none =>
    simp only [InMemorySchedulerStorage.mismatched, Bool.and_true]
    cases h with
    | inl hcount =>
      obtain ⟨n, hn, -⟩ := hcount
      simp [hn]
    | inr hinc =>
      obtain ⟨i, hi, -⟩ := hinc
      simp [hi]
  | some st =>
    rw [← Bool.not_eq_false, mismatched_eq_false_iff]
    intro ⟨hcount, hinc⟩
    cases h with
    | inl hfail =>
      obtain ⟨n, hn, hne⟩ := hfail
      exact hne st rfl (hcount n hn)
    | inr hfail =>
      obtain ⟨i, hi, hne⟩ := hfail
      exact hne st rfl (hinc i hi)

theorem commitEntries_mismatched (pre post : List ScheduleCommit)
    (h : GuardFails u ((s.commitEntries pre).1.loadScheduleState u.id)) :
    (s.commitEntries (pre ++ u :: post)).1 = (s.commitEntries (pre ++ post)).1 ∧
      u.id ∈ (s.commitEntries (pre ++ u :: post)).2 := by
  induction pre generalizing s with
  | nil =>
    have hentry : s.commitEntry u = (s, true) := by
      obtain ⟨-, heq⟩ | ⟨cfg, state, hcfg, hstate, hguard, -⟩ | ⟨hnone, hguard, -⟩ :=
        commitEntry_cases s u
      · exact heq
      · have hload : s.loadScheduleState u.id = some state := by
          simp [loadScheduleState, JsMap.has, hcfg, hstate]
        have hfail := h.mismatched
        simp only [commitEntries, hload, hguard] at hfail
        cases hfail
      · have hfail := h.mismatched
        simp only [commitEntries, hnone, hguard] at hfail
        cases hfail
    simp [commitEntries, hentry]
  | cons v pre ih =>
    obtain ⟨hstate, hmem⟩ := ih (s := (s.commitEntry v).1) h
    simp only [cons_append, commitEntries]
    refine ⟨hstate, ?_⟩
    split
    · exact mem_cons_of_mem _ hmem
    · exact hmem

theorem commitPoll_mismatched (pre post : List ScheduleCommit) (lease : Option LeaderLease)
    (h : GuardFails u ((s.commitEntries pre).1.loadScheduleState u.id)) :
    (s.commitPoll (pre ++ u :: post) lease).1 = (s.commitPoll (pre ++ post) lease).1 ∧
      ∀ conflicts, (s.commitPoll (pre ++ u :: post) lease).2 = .ok conflicts →
        u.id ∈ conflicts := by
  obtain ⟨hstate, hmem⟩ := commitEntries_mismatched pre post h
  obtain ⟨l, e, hl, hfence, heq⟩ | ⟨hfence, heq⟩ :=
    commitPoll_cases s (pre ++ u :: post) lease
  · obtain ⟨l', e', hl', -, heq'⟩ | ⟨hfence', -⟩ := commitPoll_cases s (pre ++ post) lease
    · rw [heq, heq']
      exact ⟨rfl, fun conflicts hc => nomatch hc⟩
    · rw [hfence' l hl] at hfence
      cases hfence
  · obtain ⟨l', e', hl', hfence', -⟩ | ⟨-, heq'⟩ := commitPoll_cases s (pre ++ post) lease
    · rw [hfence l' hl'] at hfence'
      cases hfence'
    · rw [heq, heq']
      refine ⟨hstate, fun conflicts hc => ?_⟩
      cases hc
      exact hmem

/-! ## The guarantee -/

/-- Over every run of the storage whose commits were built by a plan, with a new token
    for each incarnation: the log of every stored schedule holds exactly the ticks
    `0 … tickCount - 1` of its incarnation; counts never go down within an incarnation;
    a commit with a stale lease changes nothing; and an entry whose expectation fails
    changes nothing and is reported. -/
theorem tick_log_dense (cal : Calendar) (now : Int) (os : List SchedulerStorageOp)
    (hplanned : ∀ o ∈ os, KeepsLog cal o)
    (hfresh : (schedulerStorage.trace issuedIncarnation (.new now) os).Nodup) :
    let s := schedulerStorage.run (.new now) os
    (∀ id, (s.schedules.get id).isSome → ∃ state, s.state.get id = some state ∧
      Dense (logOf s id) state) ∧
    (∀ before after, os = before ++ after → ∀ id st st',
      (schedulerStorage.run (.new now) before).state.get id = some st →
      s.state.get id = some st' → st'.incarnation = st.incarnation →
      st.tickCount ≤ st'.tickCount) ∧
    (∀ updates lease,
      (∀ record, s.leases.records.get lease.key = some record → record.epoch ≠ lease.epoch) →
      (s.commitPoll updates (some lease)).1 = s) ∧
    (∀ pre u post lease, GuardFails u ((s.commitEntries pre).1.loadScheduleState u.id) →
      (s.commitPoll (pre ++ u :: post) lease).1 = (s.commitPoll (pre ++ post) lease).1 ∧
        ∀ conflicts, (s.commitPoll (pre ++ u :: post) lease).2 = .ok conflicts →
          u.id ∈ conflicts) := by
  intro s
  have hdense : LogDense s := by
    apply run_induction_always (M := schedulerStorage)
      (C := fun _ o => KeepsLog cal o) (P := LogDense)
    · exact fun t o ho ht => ht.next o ho
    · exact always_of_mem hplanned (InMemorySchedulerStorage.new now)
    · exact ⟨fun _ => rfl, fun _ _ h => absurd h (by simp [InMemorySchedulerStorage.new]),
        fun _ _ => rfl⟩
  refine ⟨fun id hid => ?_, ?_, fun updates lease hstale => ?_, fun pre u post lease h => ?_⟩
  · rw [hdense.stored id] at hid
    obtain ⟨state, hstate⟩ := Option.isSome_iff_exists.mp hid
    exact ⟨state, hstate, hdense.dense id state hstate⟩
  · intro before after hsplit id st st' hst hst' hinc
    subst hsplit
    exact tickCount_mono hfresh hst hst' hinc
  · obtain ⟨l, e, -, -, heq⟩ | ⟨hfence, -⟩ := commitPoll_cases s updates (some lease)
    · rw [heq]
    · obtain ⟨record, hget, hepoch⟩ := assertCurrent_ok_iff.mp (hfence lease rfl)
      exact absurd hepoch (hstale record hget)
  · exact commitPoll_mismatched pre post lease h

private def firstPoll (cal : Calendar) : List SchedulerStorageOp :=
  let config : DurableScheduleConfig := { id := "report", intervalMs := some 1000 }
  let configs := JsMap.empty.set "report" config
  let states := JsMap.empty.set "report" ⟨none, 0, "5f0c", none⟩
  [.upsertSchedule config "5f0c",
    .commitPoll ((planDueTicks cal ["report"] configs states 0 fun _ => 0).map (·.commit)) none]

theorem tick_log_dense_first_poll :
    let cal : Calendar := ⟨fun _ _ => .ok ⟨fun _ _ => .ok [], fun _ => .ok none⟩,
      fun _ => .ok fun _ => ⟨fun _ _ => none, fun _ _ => none, fun _ _ _ => []⟩⟩
    let s := schedulerStorage.run (.new 0) (firstPoll cal)
    (logOf s "report").map (·.tickNumber) = [0] := by
  intro cal s
  have hplanned : ∀ o ∈ firstPoll cal, KeepsLog cal o := by
    intro o ho
    cases ho with
    | head => trivial
    | tail _ ho =>
      cases ho with
      | head =>
        intro u hu
        obtain ⟨plan, hplan, rfl⟩ := mem_map.mp hu
        exact .poll _ _ _ _ _ plan hplan
      | tail _ ho => cases ho
  have hfresh : (schedulerStorage.trace issuedIncarnation (.new 0) (firstPoll cal)).Nodup := by
    decide
  obtain ⟨hdense, -⟩ := tick_log_dense cal 0 (firstPoll cal) hplanned hfresh
  obtain ⟨state, hstate, hlog, -⟩ := hdense "report" (by decide)
  have hcount : state.tickCount = 1 := by
    have heval : (schedulerStorage.run (.new 0) (firstPoll cal)).state.get "report" =
        some ⟨some 0, 1, "5f0c", none⟩ := by decide
    rw [heval] at hstate
    cases hstate
    rfl
  rw [hlog, hcount]
  rfl

end Promin.Scheduler

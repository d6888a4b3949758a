import Promin.Spec.MissedOccurrences
import Promin.Spec.SchedulerCalls

/-!
# The due index

A schedule fires again only through its entry in `nextRun`.  `Indexed` says
that the entries are right for every stored schedule but those in a set of exempt ids, whose
entries a call in flight is still to write.
-/

namespace Promin.Scheduler

open InMemorySchedulerStorage JsMap Option

/-! ## Configs -/

/-- The timing fields a validated config has in range. -/
structure ValidTiming (config : DurableScheduleConfig) : Prop where
  interval : ∀ n, config.intervalMs = some n → 0 < n
  jitter : ∀ n, config.jitterMs = some n → 0 ≤ n

def SameTiming (a b : DurableScheduleConfig) : Prop :=
  a.cron = b.cron ∧ a.rrule = b.rrule ∧ a.intervalMs = b.intervalMs ∧
    a.timezone = b.timezone ∧ a.startAt = b.startAt ∧ a.endAt = b.endAt ∧ a.jitterMs = b.jitterMs

instance (a b : DurableScheduleConfig) : Decidable (SameTiming a b) :=
  inferInstanceAs (Decidable (_ ∧ _))

variable {entry : Option Int} {config : DurableScheduleConfig}

private theorem checkNumber_of_valid {cal : Calendar}
    (h : validateScheduleConfig cal config = .ok ()) :
    checkNumber config.intervalMs (fun n => decide (0 < n)) "intervalMs" "a positive number"
      config.id = .ok () ∧
    checkNumber config.jitterMs (fun n => decide (0 ≤ n)) "jitterMs" ">= 0" config.id = .ok () := by
  simp only [validateScheduleConfig, bind, Except.bind] at h
  split at h
  · cases h
  · split at h
    · cases h
    · split at h
      · cases h
      · split at h
        · cases h
        · rename_i hinterval
          split at h
          · cases h
          · rename_i hjitter
            exact ⟨hinterval, hjitter⟩

private theorem accepted_of_checkNumber {field : Option Int} {accepted : Int → Bool}
    {name must id : String} (h : checkNumber field accepted name must id = .ok ()) :
    ∀ n, field = some n → accepted n = true := by
  intro n hn
  rw [hn] at h
  simp only [checkNumber, check] at h
  split at h
  · assumption
  · cases h

theorem validTiming_of_validate {cal : Calendar}
    (h : validateScheduleConfig cal config = .ok ()) : ValidTiming config := by
  obtain ⟨hinterval, hjitter⟩ := checkNumber_of_valid h
  constructor
  · intro n hn
    exact of_decide_eq_true (accepted_of_checkNumber hinterval n hn)
  · intro n hn
    exact of_decide_eq_true (accepted_of_checkNumber hjitter n hn)

theorem ValidTiming.jitter_nonneg (h : ValidTiming config) :
    0 ≤ config.jitterMs.getD 0 := by
  cases hj : config.jitterMs with
  | none => simp
  | some n => exact h.jitter n hj

/-! ## The next run over time -/

variable {cal : Calendar} {config : DurableScheduleConfig} {now later o : Int}

theorem nextOccurrence_gt (hcal : cal.Lawful) (hv : ValidTiming config)
    (h : nextOccurrence cal config now = .ok (some o)) : now < o := by
  simp only [nextOccurrence] at h
  split at h
  · cases hcron : cal.cron (config.cron.getD "") config.zone with
    | error e => simp [hcron, bind, Except.bind] at h
    | ok cron =>
      simp only [hcron, bind, Except.bind] at h
      exact (hcal.cron _ _ _ hcron).next_gt _ _ h
  · split at h
    · cases hrule : cal.rrule (config.rrule.getD "") with
      | error e => simp [hrule, bind, Except.bind] at h
      | ok parsed =>
        simp only [hrule, bind, Except.bind, pure, Except.pure, Except.ok.injEq] at h
        exact hcal.after_gt _ _ hrule _ _ h
    · split at h
      · rename_i interval hinterval
        cases h
        have := hv.interval interval hinterval
        omega
      · cases h

theorem nextOccurrence_mono (hcal : cal.Lawful) (hle : now ≤ later)
    (h : nextOccurrence cal config later = .ok (some o)) :
    ∃ o', nextOccurrence cal config now = .ok (some o') ∧ o' ≤ o := by
  simp only [nextOccurrence] at h ⊢
  split at h
  · rename_i htrigger
    simp only [htrigger, ↓reduceIte]
    cases hcron : cal.cron (config.cron.getD "") config.zone with
    | error e => simp [hcron, bind, Except.bind] at h
    | ok cron =>
      simp only [hcron, bind, Except.bind] at h ⊢
      exact (hcal.cron _ _ _ hcron).next_mono _ _ _ hle h
  · rename_i hnotcron
    simp only [hnotcron, Bool.false_eq_true, ↓reduceIte]
    split at h
    · rename_i htrigger
      simp only [htrigger, ↓reduceIte]
      cases hrule : cal.rrule (config.rrule.getD "") with
      | error e => simp [hrule, bind, Except.bind] at h
      | ok parsed =>
        simp only [hrule, bind, Except.bind, pure, Except.pure, Except.ok.injEq] at h ⊢
        exact hcal.after_mono _ _ hrule _ _ _ hle h
    · rename_i hnotrule
      simp only [hnotrule, Bool.false_eq_true, ↓reduceIte]
      split at h
      · rename_i interval hinterval
        cases h
        exact ⟨now + interval, rfl, by omega⟩
      · cases h

/-- The next run is the next occurrence, not before the start and before the end. -/
theorem computeNextRun_some_iff :
    computeNextRun cal config now = .ok (some o) ↔
      (∀ endAt, config.endAt = some endAt → now < endAt) ∧
      ∃ c, nextOccurrence cal config now = .ok (some c) ∧
        (∀ endAt, config.endAt = some endAt → c < endAt) ∧ o = max c (config.startAt.getD c) := by
  have hclamp : ∀ c, clampNextRun config c = some o ↔
      (∀ endAt, config.endAt = some endAt → c < endAt) ∧ o = max c (config.startAt.getD c) := by
    intro c
    simp only [clampNextRun]
    cases hend : config.endAt with
    | none =>
      cases hstart : config.startAt with
      | none => simp [eq_comm (a := o)]
      | some startAt =>
        simp only [any_none, Bool.false_eq_true, ↓reduceIte, getD_some]
        split <;> simp <;> omega
    | some endAt =>
      cases hstart : config.startAt with
      | none =>
        simp only [any_some, getD_none]
        split
        · simp_all
        · simp_all
          omega
      | some startAt =>
        simp only [any_some, getD_some]
        split
        · simp_all
        · simp_all
          split <;> simp <;> omega
  have hopen : (config.endAt.any fun endAt => decide (now ≥ endAt)) = false ↔
      ∀ endAt, config.endAt = some endAt → now < endAt := by
    cases config.endAt <;> simp
  simp only [computeNextRun]
  cases hany : config.endAt.any fun endAt => decide (now ≥ endAt) with
  | true =>
    have hclosed := mt hopen.mpr (by simp [hany])
    simp [hclosed]
  | false =>
    have hnow := hopen.mp hany
    simp only [Bool.false_eq_true, ↓reduceIte]
    cases hnext : nextOccurrence cal config now with
    | error e => simp [Except.map]
    | ok candidate =>
      cases candidate with
      | none => simp [Except.map]
      | some c =>
        simp only [Except.map, bind_some, Except.ok.injEq, hclamp, Option.some.injEq,
          exists_eq_left']
        exact ⟨fun h => ⟨hnow, h⟩, fun h => h.2⟩

theorem computeNextRun_ge (hcal : cal.Lawful) (hv : ValidTiming config)
    (h : computeNextRun cal config now = .ok (some o)) :
    now < o ∧ ∀ startAt, config.startAt = some startAt → startAt ≤ o := by
  obtain ⟨-, c, hc, -, ho⟩ := computeNextRun_some_iff.mp h
  have hgt := nextOccurrence_gt hcal hv hc
  constructor
  · omega
  · intro startAt hstart
    simp only [hstart, getD_some] at ho
    omega

theorem computeNextRun_mono (hcal : cal.Lawful) (hle : now ≤ later)
    (h : computeNextRun cal config later = .ok (some o)) :
    ∃ o', computeNextRun cal config now = .ok (some o') ∧ o' ≤ o := by
  obtain ⟨hopen, c, hc, hend, ho⟩ := computeNextRun_some_iff.mp h
  obtain ⟨c', hc', hle'⟩ := nextOccurrence_mono hcal hle hc
  refine ⟨max c' (config.startAt.getD c'), computeNextRun_some_iff.mpr ⟨?_, c', hc', ?_, rfl⟩, ?_⟩
  · intro endAt hendAt
    have := hopen endAt hendAt
    omega
  · intro endAt hendAt
    have := hend endAt hendAt
    omega
  · cases hstart : config.startAt with
    | none =>
      simp only [hstart, getD_none] at ho ⊢
      omega
    | some startAt =>
      simp only [hstart, getD_some] at ho ⊢
      omega

theorem computeNextRun_congr {a b : DurableScheduleConfig} (h : SameTiming a b) :
    computeNextRun cal a now = computeNextRun cal b now := by
  obtain ⟨hcron, hrrule, hinterval, hzone, hstart, hend, -⟩ := h
  have hclamp : clampNextRun a = clampNextRun b := by
    funext c
    simp only [clampNextRun, hstart, hend]
  simp only [computeNextRun, nextOccurrence, DurableScheduleConfig.zone, hcron, hrrule, hinterval,
    hzone, hend, hclamp]

theorem jitterNextRun_le (hv : ValidTiming config) {random : Rat} (hlt : random < 1) (o : Int) :
    ∃ r, jitterNextRun config (some o) random = some r ∧ r ≤ o + config.jitterMs.getD 0 := by
  have hdelay : jitterDelayMs config random ≤ config.jitterMs.getD 0 := by
    have hnonneg := hv.jitter_nonneg
    simp only [jitterDelayMs]
    split
    · omega
    · have hcast : (0 : Rat) ≤ ((config.jitterMs.getD 0 : Int) : Rat) :=
        Rat.intCast_le_intCast.mpr hnonneg
      have hmul := Rat.mul_le_mul_of_nonneg_right (Rat.le_of_lt hlt) hcast
      have hfloor := Rat.floor_monotone hmul
      rw [Rat.one_mul, Rat.floor_intCast] at hfloor
      exact hfloor
  have hnonneg := hv.jitter_nonneg
  simp only [jitterNextRun, map_some]
  split
  · exact ⟨o, rfl, by omega⟩
  · refine ⟨_, rfl, ?_⟩
    cases config.endAt with
    | none | some endAt =>
      simp only
      omega

/-! ## Serving a config -/

/-- The entry serves the config: it is there when the enabled config has a next run, and
    comes no later than that run plus the jitter. -/
structure Serves (cal : Calendar) (now : Int) (config : DurableScheduleConfig)
    (entry : Option Int) : Prop where
  present : config.isEnabled = true → ∀ o, computeNextRun cal config now = .ok (some o) →
    entry ≠ none
  soon : ∀ o r, computeNextRun cal config now = .ok (some o) → entry = some r →
    r ≤ o + config.jitterMs.getD 0

theorem Serves.keeps (hcal : cal.Lawful) (hle : now ≤ later)
    (h : Serves cal now config entry) : Serves cal later config entry := by
  constructor
  · intro henabled o ho
    obtain ⟨o', ho', -⟩ := computeNextRun_mono hcal hle ho
    exact h.present henabled o' ho'
  · intro o r ho hr
    obtain ⟨o', ho', hle'⟩ := computeNextRun_mono hcal hle ho
    have := h.soon o' r ho' hr
    omega

theorem Serves.none_of_disabled (h : config.isEnabled = false) : Serves cal now config none :=
  ⟨fun henabled => by simp [h] at henabled, fun _ _ _ hr => nomatch hr⟩

theorem Serves.of_le (hcal : cal.Lawful) (hv : ValidTiming config) {r : Int}
    (hr : r ≤ now ∨ ∃ startAt, config.startAt = some startAt ∧ r ≤ startAt) :
    Serves cal now config (some r) := by
  constructor
  · simp
  · intro o r' ho hr'
    cases hr'
    obtain ⟨hgt, hstart⟩ := computeNextRun_ge hcal hv ho
    have hnonneg := hv.jitter_nonneg
    cases hr with
    | inl hr => omega
    | inr hr =>
      obtain ⟨startAt, hs, hle⟩ := hr
      have := hstart startAt hs
      omega

theorem Serves.of_computed (hv : ValidTiming config)
    (h : computeNextRun cal config now = .ok entry) : Serves cal now config entry := by
  have hnonneg := hv.jitter_nonneg
  constructor
  · intro _ o ho
    rw [h] at ho
    cases ho
    simp
  · intro o r ho hr
    rw [h, hr] at ho
    cases ho
    omega

theorem Serves.congr {a b : DurableScheduleConfig} (h : SameTiming a b)
    (henabled : b.isEnabled = true → a.isEnabled = true)
    (hs : Serves cal now a entry) : Serves cal now b entry := by
  have hnext : computeNextRun cal a now = computeNextRun cal b now := computeNextRun_congr h
  have hjitter : a.jitterMs = b.jitterMs := h.2.2.2.2.2.2
  constructor
  · intro hb o ho
    exact hs.present (henabled hb) o (hnext.trans ho)
  · intro o r ho hr
    rw [← hjitter]
    exact hs.soon o r (hnext.trans ho) hr

theorem plan_serves (hcal : cal.Lawful) {state : ScheduleState} {random : Rat} {id : String}
    {current : DurableScheduleConfig} (hv : ValidTiming config) (hrandom : random < 1)
    (henabled : config.isEnabled = true) (hsame : SameTiming config current)
    (hplan : (planDueTick cal (some config) (some state) now random id).error = none)
    (hle : now ≤ later) :
    ∃ entry, (planDueTick cal (some config) (some state) now random id).commit.nextRun =
        some entry ∧ Serves cal later current entry := by
  obtain ⟨-, hdisabled⟩ | ⟨cfg, st, e, -, -, -, -, heq⟩ |
    ⟨cfg, st, occurrences, nextRun, hcfg, -, -, -, hnext, heq⟩ :=
    planDueTick_cases cal (some config) (some state) now random id
  · simp [hdisabled config state rfl rfl] at henabled
  · simp [heq, errorPlan] at hplan
  · cases hcfg
    refine ⟨jitterNextRun config nextRun random, by rw [heq]; rfl, ?_⟩
    have hserves : Serves cal now config (jitterNextRun config nextRun random) := by
      constructor
      · intro _ o ho
        rw [hnext] at ho
        cases ho
        obtain ⟨r, hr, -⟩ := jitterNextRun_le hv hrandom o
        simp [hr]
      · intro o r ho hr
        rw [hnext] at ho
        cases ho
        obtain ⟨r', hr', hle'⟩ := jitterNextRun_le hv hrandom o
        rw [hr'] at hr
        cases hr
        exact hle'
    exact (hserves.congr hsame fun _ => henabled).keeps hcal hle

/-! ## The index -/

def Indexed (cal : Calendar) (exempt : String → Prop) (s : InMemorySchedulerStorage) : Prop :=
  ∀ id config, s.schedules.get id = some config → ¬ exempt id →
    Serves cal s.now config (s.nextRun.get id)

def AllValid (configs : JsMap String DurableScheduleConfig) : Prop :=
  ∀ id config, configs.get id = some config → config.id = id ∧ ValidTiming config

structure StoredOk (s : InMemorySchedulerStorage) : Prop where
  valid : AllValid s.schedules
  state : ∀ id config, s.schedules.get id = some config → ∃ state, s.state.get id = some state

namespace StoredOk

variable {s : InMemorySchedulerStorage}

section

variable (h : StoredOk s)
include h

theorem commitEntry (u : ScheduleCommit) : StoredOk (s.commitEntry u).1 := by
  obtain ⟨-, heq⟩ | ⟨cfg, state, -, -, -, heq⟩ | ⟨-, -, heq⟩ := commitEntry_cases s u
  · rw [heq]
    exact h
  · rw [heq]
    constructor
    · exact h.valid
    · intro id config hget
      show ∃ st, (s.state.set u.id (committedState u state)).get id = some st
      rw [get_set]
      split
      · exact ⟨_, rfl⟩
      · exact h.state id config hget
  · rw [heq]
    exact ⟨h.valid, h.state⟩

theorem upsertSchedule {config : DurableScheduleConfig} (token : String)
    (hv : ValidTiming config) : StoredOk (s.upsertSchedule config token) := by
  constructor
  · intro id c hget
    rw [upsertSchedule_schedules, get_set] at hget
    split at hget
    · rename_i hid
      cases hget
      exact ⟨hid, hv.interval, hv.jitter⟩
    · exact h.valid id c hget
  · intro id c hget
    rw [upsertSchedule_schedules, get_set] at hget
    rw [upsertSchedule_state, get_set]
    split
    · exact ⟨_, rfl⟩
    · rename_i hid
      simp only [hid, ↓reduceIte] at hget
      exact h.state id c hget

theorem setEnabled (id : String) (enabled : Bool) :
    StoredOk (s.setEnabled id enabled) := by
  cases hcfg : s.schedules.get id with
  | none =>
    simp only [InMemorySchedulerStorage.setEnabled, hcfg]
    exact h
  | some cfg =>
    have hschedules := setEnabled_schedules s id enabled
    simp only [hcfg] at hschedules
    constructor
    · intro id' c hget
      rw [hschedules, get_set] at hget
      split at hget
      · rename_i hid
        cases hget
        obtain ⟨hcid, hv⟩ := h.valid id cfg hcfg
        exact ⟨hcid.trans hid, hv.interval, hv.jitter⟩
      · exact h.valid id' c hget
    · intro id' c hget
      rw [setEnabled_state]
      rw [hschedules, get_set] at hget
      split at hget
      · rename_i hid
        exact h.state id' cfg (hid ▸ hcfg)
      · exact h.state id' c hget

theorem deleteSchedule (id : String) : StoredOk (s.deleteSchedule id) := by
  constructor
  · intro id' c hget
    have hdel : (s.schedules.delete id).get id' = some c := hget
    rw [get_delete] at hdel
    split at hdel
    · cases hdel
    · exact h.valid id' c hdel
  · intro id' c hget
    have hdel : (s.schedules.delete id).get id' = some c := hget
    show ∃ st, (s.state.delete id).get id' = some st
    rw [get_delete] at hdel ⊢
    split
    · rename_i hid
      simp [hid] at hdel
    · rename_i hid
      simp only [hid, ↓reduceIte] at hdel
      exact h.state id' c hdel

theorem setNextRun (id : String) (nextRun : Option Int) :
    StoredOk (s.setNextRun id nextRun) := by
  cases nextRun with
  | none | some r => exact ⟨h.valid, h.state⟩

theorem recordFire (id : String) (firedAt : Int) (count : Nat) :
    StoredOk (s.recordFire id firedAt count) := by
  simp only [InMemorySchedulerStorage.recordFire]
  split
  · exact h
  · constructor
    · exact h.valid
    · intro id' c hget
      simp only [get_set]
      split
      · exact ⟨_, rfl⟩
      · exact h.state id' c hget

theorem call (call : SchedulerStorageOp)
    (hstored : ∀ config token, call = .upsertSchedule config token ∨
      call = .insertSchedule config token → ValidTiming config) :
    StoredOk (schedulerStorage.next s call) := by
  cases call with
  | advance ms | tryAcquireLeader key instanceId ttlMs | releaseLeader lease =>
    exact ⟨h.valid, h.state⟩
  | commitPoll updates lease =>
    show StoredOk (s.commitPoll updates lease).1
    obtain ⟨l, e, -, -, heq⟩ | ⟨-, heq⟩ := commitPoll_cases s updates lease
    · rw [heq]
      exact h
    · rw [heq]
      exact commitEntries_induction updates (fun t u _ ht => ht.commitEntry u) h
  | upsertSchedule config token => exact h.upsertSchedule token (hstored config token (.inl rfl))
  | insertSchedule config token =>
    show StoredOk (s.insertSchedule config token).1
    simp only [insertSchedule]
    split
    · exact h
    · exact h.upsertSchedule token (hstored config token (.inr rfl))
  | deleteSchedule id => exact h.deleteSchedule id
  | setEnabled id enabled => exact h.setEnabled id enabled
  | setNextRun id nextRun => exact h.setNextRun id nextRun
  | recordFire id firedAt count => exact h.recordFire id firedAt count

end

end StoredOk

namespace Indexed

variable {exempt exempt' : String → Prop} {s : InMemorySchedulerStorage}

theorem mono (hsub : ∀ id, exempt id → exempt' id) (h : Indexed cal exempt s) :
    Indexed cal exempt' s :=
  fun id config hget hnot => h id config hget fun hex => hnot (hsub id hex)

theorem of_same {s' : InMemorySchedulerStorage} (hschedules : s'.schedules = s.schedules)
    (hnext : s'.nextRun = s.nextRun) (hnow : s'.now = s.now) (h : Indexed cal exempt s) :
    Indexed cal exempt s' := by
  intro id config hget hnot
  rw [hnext, hnow]
  rw [hschedules] at hget
  exact h id config hget hnot

theorem advance (hcal : cal.Lawful) (ms : Nat) (h : Indexed cal exempt s) :
    Indexed cal exempt (s.advance ms) := by
  intro id config hget hnot
  have hle : s.now ≤ (s.advance ms).now := by
    show s.now ≤ s.now + (ms : Int)
    omega
  exact (h id config hget hnot).keeps hcal hle

theorem update (s : InMemorySchedulerStorage) {s' : InMemorySchedulerStorage} (id : String)
    (hnow : s'.now = s.now) (hother : ∀ id', id' ≠ id → s'.schedules.get id' = s.schedules.get id' ∧
      s'.nextRun.get id' = s.nextRun.get id')
    (hown : ∀ config, s'.schedules.get id = some config → ¬ exempt id →
      Serves cal s.now config (s'.nextRun.get id))
    (h : Indexed cal (fun id' => id' = id ∨ exempt id') s) : Indexed cal exempt s' := by
  intro id' config hget hnot
  rw [hnow]
  by_cases hid : id' = id
  · rw [hid] at hget hnot ⊢
    exact hown config hget hnot
  · obtain ⟨hschedules, hnext⟩ := hother id' hid
    rw [hschedules] at hget
    rw [hnext]
    exact h id' config hget fun hex => hex.elim hid hnot

theorem commitEntry {u : ScheduleCommit}
    (hu : ∀ config, s.schedules.get u.id = some config → config.isEnabled = true →
      mismatched u (s.loadScheduleState u.id) = false →
        exempt u.id ∨ u.nextRun = none ∨ ∃ entry, u.nextRun = some entry ∧
          Serves cal s.now config entry)
    (hok : StoredOk s) (h : Indexed cal exempt s) : Indexed cal exempt (s.commitEntry u).1 := by
  obtain ⟨-, heq⟩ | ⟨cfg, state, hcfg, hstate, hguard, heq⟩ | ⟨hgone, -, heq⟩ :=
    commitEntry_cases s u
  · rw [heq]
    exact h
  · rw [heq]
    have hload : s.loadScheduleState u.id = some state := by
      simp [loadScheduleState, JsMap.has, hcfg, hstate]
    have hother : ∀ id', id' ≠ u.id →
        (s.committedNextRun u cfg).get id' = s.nextRun.get id' := by
      intro id' hid
      simp only [committedNextRun]
      split
      · exact get_delete_ne _ (Ne.symm hid)
      · split
        · exact get_set_ne _ _ (Ne.symm hid)
        · rfl
    apply update s u.id
    · rfl
    · exact fun id' hid => ⟨rfl, hother id' hid⟩
    · intro config hget hnot
      have hconfig : config = cfg := Option.some.inj (hget.symm.trans hcfg)
      rw [hconfig]
      show Serves cal s.now cfg ((s.committedNextRun u cfg).get u.id)
      simp only [committedNextRun]
      cases henabled : cfg.isEnabled with
      | false =>
        simp only [Bool.not_false, Bool.true_or, ↓reduceIte, get_delete_self]
        exact .none_of_disabled henabled
      | true =>
        have hold := h u.id cfg hcfg hnot
        rw [hload] at hu
        obtain hex | hnone | ⟨entry, hentry, hserves⟩ := hu cfg hcfg henabled hguard
        · exact absurd hex hnot
        · simp only [hnone]
          exact hold
        · cases entry with
          | none =>
            simp only [hentry, BEq.rfl, Bool.or_true, ↓reduceIte, get_delete_self]
            exact hserves
          | some r =>
            simp only [hentry]
            simp only [Bool.not_true, Bool.false_or, Option.some.injEq, reduceCtorEq,
              beq_iff_eq, ↓reduceIte, get_set_self]
            exact hserves
    · exact h.mono fun id hex => .inr hex
  · -- the schedule is gone, so its entry serves nobody
    rw [heq]
    apply update s u.id
    · rfl
    · exact fun id' hid => ⟨rfl, get_delete_ne _ (Ne.symm hid)⟩
    · intro config hget _
      have hstored : s.schedules.get u.id = some config := hget
      obtain ⟨state, hstate⟩ := hok.state u.id config hstored
      simp [loadScheduleState, JsMap.has, hstored, hstate] at hgone
    · exact h.mono fun id hex => .inr hex

theorem upsertSchedule {config : DurableScheduleConfig} (token : String)
    (hex : config.isEnabled = true → exempt config.id)
    (h : Indexed cal (fun id => id = config.id ∨ exempt id) s) :
    Indexed cal exempt (s.upsertSchedule config token) := by
  apply update s config.id
  · exact (upsertSchedule_sameLeases s config token).2
  · intro id' hid
    constructor
    · rw [upsertSchedule_schedules]
      exact get_set_ne _ _ (Ne.symm hid)
    · simp only [InMemorySchedulerStorage.upsertSchedule, seedNextRun]
      split
      · exact get_delete_ne _ (Ne.symm hid)
      · split
        · rfl
        · exact get_set_ne _ _ (Ne.symm hid)
  · intro c hget hnot
    have hdisabled : config.isEnabled = false := by
      cases henabled : config.isEnabled with
      | false => rfl
      | true => exact absurd (hex henabled) hnot
    rw [upsertSchedule_schedules, get_set_self] at hget
    cases hget
    have hnone : (s.upsertSchedule config token).nextRun.get config.id = none := by
      simp [InMemorySchedulerStorage.upsertSchedule, hdisabled]
    rw [hnone]
    apply Serves.none_of_disabled
    simp [DurableScheduleConfig.isEnabled] at hdisabled ⊢
    exact hdisabled
  · exact h

variable {id : String}

theorem disable (h : Indexed cal (fun id' => id' = id ∨ exempt id') s) :
    Indexed cal exempt (s.setEnabled id false) := by
  have hnow := (setEnabled_sameLeases s id false).2
  have hschedules := setEnabled_schedules s id false
  cases hcfg : s.schedules.get id with
  | none =>
    apply update s id hnow
    · intro id' _
      simp [setEnabled, hcfg]
    · intro config hget
      simp [hschedules, hcfg] at hget
    · exact h
  | some cfg =>
    simp only [hcfg] at hschedules
    apply update s id hnow
    · intro id' hid
      constructor
      · rw [hschedules]
        exact get_set_ne _ _ (Ne.symm hid)
      · simp only [setEnabled, hcfg, Bool.not_false, ↓reduceIte]
        exact get_delete_ne _ (Ne.symm hid)
    · intro config hget _
      rw [hschedules, get_set_self] at hget
      cases hget
      have hnone : (s.setEnabled id false).nextRun.get id = none := by
        simp [setEnabled, hcfg]
      rw [hnone]
      exact .none_of_disabled rfl
    · exact h

theorem enable (hcal : cal.Lawful) (hok : StoredOk s) (hpos : 0 ≤ s.now)
    (h : Indexed cal exempt s) : Indexed cal exempt (s.setEnabled id true) := by
  have hnow := (setEnabled_sameLeases s id true).2
  have hschedules := setEnabled_schedules s id true
  cases hcfg : s.schedules.get id with
  | none =>
    simp only [setEnabled, hcfg]
    exact h
  | some cfg =>
    simp only [hcfg] at hschedules
    obtain ⟨hid, hv⟩ := hok.valid id cfg hcfg
    have hentries : (s.setEnabled id true).nextRun =
        if s.nextRun.has id then s.nextRun
        else s.nextRun.set id (max s.now (cfg.startAt.getD 0)) := by
      simp only [setEnabled, hcfg, Bool.not_true, Bool.false_eq_true, ↓reduceIte, seedNextRun, hid]
      split <;> rfl
    apply update s id hnow
    · intro id' hne
      constructor
      · rw [hschedules]
        exact get_set_ne _ _ (Ne.symm hne)
      · rw [hentries]
        split
        · rfl
        · exact get_set_ne _ _ (Ne.symm hne)
    · intro config hget hnot
      rw [hschedules, get_set_self] at hget
      cases hget
      have hv' : ValidTiming { cfg with enabled := some true } := ⟨hv.interval, hv.jitter⟩
      rw [hentries]
      split
      · -- the entry it had while disabled was early enough
        rename_i hhas
        have hsoon := (h id cfg hcfg hnot).soon
        constructor
        · intro _ o _ hnone
          simp [JsMap.has, hnone] at hhas
        · intro o r ho hr
          have hsame : SameTiming cfg { cfg with enabled := some true } :=
            ⟨rfl, rfl, rfl, rfl, rfl, rfl, rfl⟩
          exact hsoon o r ((computeNextRun_congr hsame).trans ho) hr
      · rw [get_set_self]
        apply Serves.of_le hcal hv'
        cases hstart : cfg.startAt with
        | none =>
          left
          simp only [getD_none]
          omega
        | some startAt =>
          simp only [getD_some]
          by_cases hle : s.now ≤ startAt
          · right
            exact ⟨startAt, rfl, by omega⟩
          · left
            omega
    · exact h.mono fun id hex => .inr hex

theorem setNextRun {entry : Option Int}
    (hserves : ∀ config, s.schedules.get id = some config → ¬ exempt id →
      Serves cal s.now config entry) (h : Indexed cal (fun id' => id' = id ∨ exempt id') s) :
    Indexed cal exempt (s.setNextRun id entry) := by
  cases entry with
  | none =>
    apply update s id
    · rfl
    · exact fun id' hid => ⟨rfl, get_delete_ne _ (Ne.symm hid)⟩
    · intro config hget hnot
      have hnone : (s.setNextRun id none).nextRun.get id = none := get_delete_self _ _
      rw [hnone]
      exact hserves config hget hnot
    · exact h
  | some r =>
    apply update s id
    · rfl
    · exact fun id' hid => ⟨rfl, get_set_ne _ _ (Ne.symm hid)⟩
    · intro config hget hnot
      have hsome : (s.setNextRun id (some r)).nextRun.get id = some r := get_set_self _ _ _
      rw [hsome]
      exact hserves config hget hnot
    · exact h

theorem deleteSchedule (id : String) (h : Indexed cal exempt s) :
    Indexed cal exempt (s.deleteSchedule id) := by
  apply update s id
  · rfl
  · exact fun id' hid => ⟨get_delete_ne _ (Ne.symm hid), get_delete_ne _ (Ne.symm hid)⟩
  · intro config hget
    have hdel : (s.schedules.delete id).get id = some config := hget
    simp at hdel
  · exact h.mono fun id hex => .inr hex

end Indexed

end Promin.Scheduler

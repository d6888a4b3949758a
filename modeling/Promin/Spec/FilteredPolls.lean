import Promin.Scheduler.SchedulerSystem

/-!
# Polls of one schedule and of a partition

A poll fetches the ids of the schedules that are due the longest, up to a limit, and keeps those
it is for.  What the limit cuts off is not planned, however few of the others the poll is for.
-/

namespace Promin.Scheduler

open List InMemorySchedulerStorage

/-- All that `findDue` can answer, in its order. -/
def InMemorySchedulerStorage.dueInOrder (s : InMemorySchedulerStorage) (ns : Option String) :
    List String :=
  s.findDue s.now s.nextRun.entries.length ns

theorem InMemorySchedulerStorage.findDue_eq (s : InMemorySchedulerStorage) (limit : Nat)
    (ns : Option String) : s.findDue s.now limit ns = (s.dueInOrder ns).take limit := by
  simp only [dueInOrder, findDue]
  generalize hsorted : (s.nextRun.entries.filter _).insertionSort (fun a b => a.2 ≤ b.2) = sorted
  have hlength : sorted.length ≤ s.nextRun.entries.length := by
    rw [← hsorted, length_insertionSort]
    exact length_filter_le _ _
  rw [take_of_length_le hlength, map_take]

variable (config : DurableSchedulerConfig)

/-- How many of the due ids a poll fetches. -/
def fetchLimit : Nat :=
  config.batchSize * (config.partition.map Prod.snd).getD 1

/-- The schedule falls to this poller's partition. -/
def OwnPartition (id : String) : Prop :=
  ∀ index count, config.partition = some (index, count) → schedulePartition id count = index

/-- The poll of a stream that holds the lease plans the schedule. -/
def Plans (d : Deployment) (s : SchedulerSystem) (i : Nat) (lease : LeaderLease) (id : String) :
    Prop :=
  ∃ ids, (s.pollDue d i lease).streams i = .found lease ids ∧ ∀ configs states random,
    id ∈ (planDueTicks d.calendar ids configs states s.storage.now random).map (·.id)

theorem map_id_planDueTicks (cal : Calendar) (ids : List String)
    (configs : JsMap String DurableScheduleConfig) (states : JsMap String ScheduleState)
    (now : Int) (random : String → Rat) :
    (planDueTicks cal ids configs states now random).map (·.id) = ids := by
  have hid : ∀ id,
      (planDueTick cal (configs.get id) (states.get id) now (random id) id).id = id := by
    intro id
    unfold planDueTick
    split
    · split
      · rfl
      · split <;> rfl
    · rfl
  simp [planDueTicks, Function.comp_def, hid]

section

variable {d : Deployment} {s : SchedulerSystem} {i : Nat} {lease : LeaderLease}

theorem plans_iff {id : String} : Plans d s i lease id ↔
    id ∈ targetIds (d.config (d.instanceOf i)) (d.scheduleId i)
      ((s.storage.dueInOrder (d.config (d.instanceOf i)).namespace).take
        (fetchLimit (d.config (d.instanceOf i)))) := by
  have hconfigs : Nonempty (JsMap String DurableScheduleConfig) := ⟨.empty⟩
  have hstates : Nonempty (JsMap String ScheduleState) := ⟨.empty⟩
  rw [← findDue_eq]
  simp only [Plans, SchedulerSystem.pollDue, map_id_planDueTicks, SchedulerSystem.toPhase,
    fetchLimit]
  generalize targetIds _ _ _ = ids
  cases ids with
  | nil | cons first rest => simp [setAt]

/-- Something that passes the filter is kept. -/
private theorem exists_mem_take_filter {l : List String} {p : String → Bool} {n : Nat}
    (hpos : 0 < n) {id : String} (hmem : id ∈ l) (hp : p id = true) :
    ∃ first ∈ (l.filter p).take n, p first = true := by
  cases hkept : l.filter p with
  | nil => exact absurd hp (filter_eq_nil_iff.mp hkept id hmem)
  | cons first rest =>
    have hfirst : first ∈ l.filter p := hkept ▸ mem_cons_self
    obtain ⟨n, rfl⟩ := Nat.exists_eq_add_of_le' hpos
    exact ⟨first, by simp, (mem_filter.mp hfirst).2⟩

private theorem mem_take_filter_of_unique {l : List String} {p : String → Bool} {n : Nat}
    (hpos : 0 < n) {id : String} (hmem : id ∈ l) (hp : p id = true)
    (hunique : ∀ id', p id' = true → id' = id) : id ∈ (l.filter p).take n := by
  obtain ⟨first, hfirst, hkept⟩ := exists_mem_take_filter hpos hmem hp
  rw [hunique first hkept] at hfirst
  exact hfirst

private theorem ownPartition_iff (id : String) : (match config.partition with
      | some (index, count) => schedulePartition id count == index
      | none => true) = true ↔ OwnPartition config id := by
  unfold OwnPartition
  cases config.partition with
  | none => simp
  | some partition =>
    obtain ⟨index, count⟩ := partition
    simp

/-- A schedule that is due is planned by the poll for it, and one schedule of a partition by the
    poll of the partition, exactly when fewer schedules are due before it than the poll
    fetches. -/
theorem filtered_poll_iff (d : Deployment) (s : SchedulerSystem) (i : Nat) (lease : LeaderLease)
    (hbatch : 0 < (d.config (d.instanceOf i)).batchSize) :
    let config := d.config (d.instanceOf i)
    let due := s.storage.dueInOrder config.namespace
    (∀ id ∈ due, id ≠ "" → d.scheduleId i = some id →
      (Plans d s i lease id ↔ due.idxOf id < fetchLimit config ∧ OwnPartition config id)) ∧
    (d.scheduleId i = none ∨ d.scheduleId i = some "" → (∃ id ∈ due, OwnPartition config id) →
      ((∃ id, Plans d s i lease id) ↔
        ∃ id ∈ due, OwnPartition config id ∧ due.idxOf id < fetchLimit config)) := by
  intro config due
  have hown := fun id => ownPartition_iff config id
  constructor
  · intro id hdue hid hstream
    have htruthy : truthy (some id) = true := by simpa [truthy] using hid
    rw [plans_iff, ← mem_take_iff_idxOf_lt hdue, hstream, targetIds, htruthy]
    constructor
    · intro hmem
      obtain ⟨hfetched, hkept⟩ := mem_filter.mp (mem_of_mem_take hmem)
      simp only [if_true, Bool.and_eq_true] at hkept
      exact ⟨hfetched, (hown id).mp hkept.2⟩
    · rintro ⟨hfetched, hpartition⟩
      refine mem_take_filter_of_unique hbatch hfetched ?_ fun id' hkept => ?_
      · exact Bool.and_eq_true_iff.mpr ⟨by simp, (hown id).mpr hpartition⟩
      · simp only [if_true, Bool.and_eq_true, beq_iff_eq, Option.some.injEq] at hkept
        exact hkept.1.symm
  · intro hstream hdue
    have htruthy : truthy (d.scheduleId i) = false := by
      rcases hstream with h | h <;> rw [h] <;> rfl
    simp only [plans_iff, targetIds, htruthy, Bool.false_eq_true, if_false, Bool.true_and]
    constructor
    · rintro ⟨id, hmem⟩
      obtain ⟨hfetched, hkept⟩ := mem_filter.mp (mem_of_mem_take hmem)
      exact ⟨id, mem_of_mem_take hfetched, (hown id).mp hkept,
        (mem_take_iff_idxOf_lt (mem_of_mem_take hfetched)).mp hfetched⟩
    · rintro ⟨id, hmem, hpartition, hlt⟩
      refine Exists.imp (fun first h => h.1)
        (exists_mem_take_filter hbatch ((mem_take_iff_idxOf_lt hmem).mpr hlt) ?_)
      exact (hown id).mpr hpartition

end

/-! ## A stream of one schedule -/

/-- Libraries that parse nothing; interval schedules do not call them. -/
private def noLibraries : Calendar where
  cron _ _ := .error ⟨"TypeError", "CronPattern: invalid configuration format"⟩
  rrule _ := .error ⟨"Error", "Unknown RRULE property"⟩

private def streamOf (id : String) : Deployment where
  calendar := noLibraries
  config _ := { instanceId := "a", leaderLockTtlMs := 3000, batchSize := 1 }
  instanceOf i := i
  scheduleId _ := some id

private def twoDue : SchedulerSystem :=
  { SchedulerSystem.new 10 with
    storage := { ((new 10).upsertSchedule
        { id := "report", intervalMs := some 1000 } "5f0c").upsertSchedule
          { id := "mail", intervalMs := some 1000 } "77aa" with
      nextRun := (JsMap.empty.set "report" 1).set "mail" 2 } }

private def heldLease : LeaderLease := ⟨"k", "a", 1⟩

theorem filtered_poll_report : Plans (streamOf "report") twoDue 0 heldLease "report" := by
  exact ((filtered_poll_iff (streamOf "report") twoDue 0 heldLease Nat.one_pos).1 "report"
    (by decide) (by decide) rfl).mpr ⟨by decide, nofun⟩

/-- `mail` is due, and its own stream does not plan it: the limit leaves `report` only. -/
theorem filtered_poll_counterexample : "mail" ∈ twoDue.storage.dueInOrder none ∧
    (streamOf "mail").scheduleId 0 = some "mail" ∧
      ¬ Plans (streamOf "mail") twoDue 0 heldLease "mail" := by
  refine ⟨by decide, rfl, ?_⟩
  rw [plans_iff]
  decide

end Promin.Scheduler

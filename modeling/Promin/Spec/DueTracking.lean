import Promin.Spec.DueIndex
import Promin.Spec.TickHistory

/-!
# Enabled schedules stay in due-tracking

A poll writes `nextRun` values it computed from configs it loaded earlier, and
an update writes the one of the config it merged, while other calls may have
replaced the config since.
-/

namespace Promin.Scheduler

open InMemorySchedulerStorage SchedulerSystem List Indexed

/-! ## What the claim says of a state -/

/-- The instant is the first occurrence after some instant from now on, within
    `[startAt, endAt)`. -/
def FutureOccurrence (cal : Calendar) (config : DurableScheduleConfig) (now o : Int) : Prop :=
  (∃ t, now ≤ t ∧ nextOccurrence cal config t = .ok (some o)) ∧
    (∀ startAt, config.startAt = some startAt → startAt ≤ o) ∧
    ∀ endAt, config.endAt = some endAt → o < endAt

/-- No call is in progress: streams are stopped or between polls. -/
def Idle (s : SchedulerSystem) : Prop :=
  (∀ i, s.streams i = .stopped ∨ s.streams i = .polling) ∧ (∀ i, s.manual i = none) ∧
    ∀ i, s.admin i = none

/-! ## Calls that are still to write an entry -/

def toWrite : Option AdminCall → List String
  | some (.registered id) => [id]
  | some (.updated config) => [config.id]
  | _ => []

def toDisable : StreamPhase → List String
  | .disabling ids _ => ids
  | _ => []

/-- Some call in flight is still to write the schedule's entry, or to disable it. -/
def Pending (s : SchedulerSystem) (id : String) : Prop :=
  (∃ i, id ∈ toWrite (s.admin i)) ∨ ∃ i, id ∈ toDisable (s.streams i)

def PlannedAs (planning : Planning) (id : String) (config : DurableScheduleConfig) : Prop :=
  ∃ c st, planning.configs.get id = some c ∧ planning.states.get id = some st ∧
    c.isEnabled = true ∧ SameTiming c config

/-- The plan's entry conflicts, meets an enabled schedule of the timing it was planned
    from, or one that a call in flight is still to write. -/
def EntryCurrent (s : SchedulerSystem) (planning : Planning) (t : InMemorySchedulerStorage)
    (plan : PlannedSchedule) : Prop :=
  plan.error = none → ∀ config, t.schedules.get plan.id = some config →
    config.isEnabled = true → mismatched plan.commit (t.loadScheduleState plan.id) = false →
      Pending s plan.id ∨ PlannedAs planning plan.id config

def EachEntry (P : InMemorySchedulerStorage → PlannedSchedule → Prop) :
    InMemorySchedulerStorage → List PlannedSchedule → Prop
  | _, [] => True
  | t, plan :: rest => P t plan ∧ EachEntry P (t.commitEntry plan.commit).1 rest

/-- Draws are in `[0, 1)`, and a next run is written only over a config of the timing it
    was computed from, or under a call that is still to write the entry. -/
def WritesCurrent (p : SchedulerSystem × History) : SchedulerOp → Prop
  | .stream _ (.plan random) => ∀ id, 0 ≤ random id ∧ random id < 1
  | .stream i (.commit false) =>
    match p.1.streams i with
    | .committing batch acked _ =>
      p.1.storage.leases.assertCurrent batch.lease = .ok () →
        EachEntry (EntryCurrent p.1 (p.2.planning i)) p.1.storage (readyPlans acked 0 batch.plans)
    | _ => True
  | .admin i .recompute =>
    match p.1.admin i with
    | some (.updated config) => ∀ current, p.1.storage.schedules.get config.id = some current →
        SameTiming config current ∨ Pending (p.1.toAdmin i none) config.id
    | _ => True
  | _ => True

variable (d : Deployment)

def BatchFits (now : Int) (p : Planning) (batch : PollBatch) : Prop :=
  AllValid p.configs ∧ p.now ≤ now ∧ ∃ ids random, (∀ id, random id < 1) ∧
    batch.plans = planDueTicks d.calendar ids p.configs p.states p.now random

def PhaseFits (now : Int) (p : Planning) : StreamPhase → Prop
  | .configsLoaded _ _ configs => AllValid configs
  | .loaded _ _ configs _ => AllValid configs
  | .emitting batch _ _ => BatchFits d now p batch
  | .committing batch _ _ => BatchFits d now p batch
  | _ => True

def AdminFits : Option AdminCall → Prop
  | some (.merged config) => ValidTiming config
  | some (.updated config) => ValidTiming config
  | _ => True

/-- Everything held is valid, and every schedule with nothing pending is served. -/
structure TrackingOk (p : SchedulerSystem × History) : Prop where
  now_nonneg : 0 ≤ p.1.storage.now
  stored : StoredOk p.1.storage
  phases : ∀ i, PhaseFits d p.1.storage.now (p.2.planning i) (p.1.streams i)
  admins : ∀ i, AdminFits (p.1.admin i)
  indexed : Indexed d.calendar (Pending p.1) p.1.storage

variable {d}

/-! ## What stays pending -/

theorem toDisable_disablingPhase (ids : List String) (stopping : Bool) :
    toDisable (disablingPhase ids stopping) = ids := by
  simp only [disablingPhase]
  split
  · rename_i hempty
    rw [isEmpty_iff.mp hempty]
    cases stopping <;> rfl
  · rfl

variable {s : SchedulerSystem}

theorem pending_stream {i : Nat} {o : StreamOp} (done : String → Prop)
    (hown : ∀ id ∈ toDisable (s.streams i),
      done id ∨ id ∈ toDisable ((s.streamStep d i o).1.streams i)) :
    ∀ id, Pending s id → done id ∨ Pending (s.streamStep d i o).1 id := by
  obtain ⟨-, hadmin, hother⟩ := streamStep_frame (d := d) s i o
  intro id hpending
  cases hpending with
  | inl hwrite =>
    right; left
    rw [hadmin]
    exact hwrite
  | inr hdisable =>
    obtain ⟨j, hj⟩ := hdisable
    by_cases hji : j = i
    · rw [hji] at hj
      cases hown id hj with
      | inl hdone => exact .inl hdone
      | inr hstill => exact .inr (.inr ⟨i, hstill⟩)
    · rw [← hother j hji] at hj
      exact .inr (.inr ⟨j, hj⟩)

theorem pending_admin {s s' : SchedulerSystem} {i : Nat} (done : String → Prop)
    (hstreams : s'.streams = s.streams) (hother : ∀ j, j ≠ i → s'.admin j = s.admin j)
    (hown : ∀ id ∈ toWrite (s.admin i), done id ∨ id ∈ toWrite (s'.admin i)) :
    ∀ id, Pending s id → done id ∨ Pending s' id := by
  intro id hpending
  cases hpending with
  | inl hwrite =>
    obtain ⟨j, hj⟩ := hwrite
    by_cases hji : j = i
    · rw [hji] at hj
      cases hown id hj with
      | inl hdone => exact .inl hdone
      | inr hstill => exact .inr (.inl ⟨i, hstill⟩)
    · rw [← hother j hji] at hj
      exact .inr (.inl ⟨j, hj⟩)
  | inr hdisable =>
    right; right
    rw [hstreams]
    exact hdisable

/-! ## Commits -/

theorem planDueTick_id (cal : Calendar) (config : Option DurableScheduleConfig)
    (state : Option ScheduleState) (now : Int) (random : Rat) (id : String) :
    (planDueTick cal config state now random id).id = id ∧
      (planDueTick cal config state now random id).commit.id = id := by
  obtain ⟨h, -⟩ | ⟨cfg, st, e, -, -, -, -, h⟩ | ⟨cfg, st, occurrences, nextRun, -, -, -, -, -, h⟩ :=
    planDueTick_cases cal config state now random id
  · rw [h]
    exact ⟨rfl, rfl⟩
  · rw [h]
    exact ⟨rfl, rfl⟩
  · rw [h]
    exact ⟨rfl, rfl⟩

variable {planning : Planning}

theorem Indexed.commitPlans {exempt : String → Prop} {now : Int} (hcal : d.calendar.Lawful)
    (hvalid : AllValid planning.configs) (hpast : planning.now ≤ now)
    (hpending : ∀ id, Pending s id → exempt id) {plans : List PlannedSchedule}
    (hplans : ∀ plan ∈ plans, ∃ id random, random < 1 ∧ plan = planDueTick d.calendar
      (planning.configs.get id) (planning.states.get id) planning.now random id)
    (hbroken : ∀ plan ∈ plans, plan.error ≠ none → exempt plan.id)
    {t : InMemorySchedulerStorage} (hnow : t.now = now) (hok : StoredOk t)
    (heach : EachEntry (EntryCurrent s planning) t plans) (h : Indexed d.calendar exempt t) :
    Indexed d.calendar exempt (t.commitEntries (plans.map (·.commit))).1 := by
  induction plans generalizing t with
  | nil => exact h
  | cons plan rest ih =>
    obtain ⟨hentry, hrest⟩ := heach
    obtain ⟨id, random, hrandom, hplan⟩ := hplans plan mem_cons_self
    obtain ⟨hid, hcommitId⟩ := planDueTick_id d.calendar (planning.configs.get id)
      (planning.states.get id) planning.now random id
    rw [← hplan] at hid hcommitId
    have hsame : plan.commit.id = plan.id := hcommitId.trans hid.symm
    have hfirst : Indexed d.calendar exempt (t.commitEntry plan.commit).1 := by
      apply h.commitEntry _ hok
      intro config hget henabled hguard
      rw [hsame] at hget hguard ⊢
      by_cases herror : plan.error = none
      · cases hentry herror config hget henabled hguard with
        | inl hpend => exact .inl (hpending _ hpend)
        | inr hplanned =>
          -- planned from the same timing: its next run serves the stored config
          obtain ⟨c, st, hc, hst, hcenabled, htiming⟩ := hplanned
          rw [hid] at hc hst
          obtain ⟨-, hv⟩ := hvalid id c hc
          have hnone : (planDueTick d.calendar (some c) (some st) planning.now random id).error =
              none := by
            rw [← hc, ← hst, ← hplan]
            exact herror
          have hserves := plan_serves hcal hv hrandom hcenabled htiming hnone hpast
          rw [← hc, ← hst, ← hplan] at hserves
          right; right
          rw [hnow]
          exact hserves
      · exact .inl (hbroken plan mem_cons_self herror)
    have hnow' : (t.commitEntry plan.commit).1.now = now :=
      (commitEntry_sameLeases t plan.commit).2.trans hnow
    exact ih (fun p hp => hplans p (mem_cons_of_mem _ hp))
      (fun p hp => hbroken p (mem_cons_of_mem _ hp)) hnow' (hok.commitEntry _) hrest hfirst

/-! ## One step of a stream -/

theorem toDisable_step (s : SchedulerSystem) (i : Nat) (o : StreamOp) :
    (∃ id ids stopping, o = .disable ∧ s.streams i = .disabling (id :: ids) stopping ∧
      toDisable ((s.streamStep d i o).1.streams i) = ids) ∨
    ∀ id ∈ toDisable (s.streams i), id ∈ toDisable ((s.streamStep d i o).1.streams i) := by
  cases hphase : s.streams i with
  | disabling ids stopping =>
    cases o with
    | disable =>
      cases ids with
      | nil =>
        right
        intro id hid
        exact absurd hid not_mem_nil
      | cons id ids =>
        left
        refine ⟨id, ids, stopping, rfl, rfl, ?_⟩
        simp only [streamStep, hphase, setAt_self]
        exact toDisable_disablingPhase ids stopping
    | stop =>
      right
      intro id hid
      simp only [streamStep, stopStream, hphase, toPhase, setAt_self]
      exact hid
    | _ =>
      right
      intro id hid
      simp only [streamStep, hphase]
      exact hid
  | _ =>
    right
    intro id hid
    exact absurd hid not_mem_nil

variable {p : SchedulerSystem × History}

theorem TrackingOk.indexed_stream (hcal : d.calendar.Lawful)
    (h : TrackingOk d p) (i : Nat) (o : StreamOp) (hc : WritesCurrent p (.stream i o)) :
    Indexed d.calendar (Pending (p.1.streamStep d i o).1) (p.1.streamStep d i o).1.storage := by
  obtain ⟨id, ids, stopping, rfl, hphase, hleft⟩ | hkept := toDisable_step (d := d) p.1 i o
  · -- the schedule is disabled now and needs no entry any more
    rw [streamStep_storage]
    simp only [streamCall, hphase]
    apply disable
    apply h.indexed.mono
    apply pending_stream
    intro id' hid'
    rw [hleft]
    rw [hphase] at hid'
    exact mem_cons.mp hid'
  · have hpending : ∀ id, Pending p.1 id → Pending (p.1.streamStep d i o).1 id := by
      intro id hid
      have hstill := pending_stream (d := d) (fun _ => False)
        (fun id hid => .inr (hkept id hid)) id hid
      exact hstill.resolve_left not_false
    have hold := h.indexed.mono hpending
    rw [streamStep_storage]
    cases hcall : streamCall d p.1 i o with
    | none => exact hold
    | some call =>
      simp only [streamCall] at hcall
      split at hcall
      · cases hcall
        exact hold.of_same rfl rfl rfl
      · rename_i fails batch acked stopping hphase
        split at hcall
        · cases hcall
        · rename_i hready
          simp only [Bool.or_eq_true, not_or, Bool.not_eq_true] at hready
          obtain ⟨hsome, hfails⟩ := hready
          cases hcall
          show Indexed _ _ (p.1.storage.commitPoll
            ((readyPlans acked 0 batch.plans).map (·.commit)) (some batch.lease)).1
          obtain ⟨l, e, -, -, heq⟩ | ⟨hfence, heq⟩ := commitPoll_cases p.1.storage
            ((readyPlans acked 0 batch.plans).map (·.commit)) (some batch.lease)
          · rw [heq]
            exact hold
          · have hfits := h.phases i
            rw [hphase] at hfits
            obtain ⟨hvalid, hpast, ids, random, hrandom, hplans⟩ := hfits
            rw [heq]
            simp only [WritesCurrent, hfails, hphase] at hc
            refine commitPlans hcal hvalid hpast hpending ?_ ?_ rfl h.stored
              (hc (hfence _ rfl)) hold
            · intro plan hplan
              have hmem := readyPlans_subset hplan
              rw [hplans] at hmem
              obtain ⟨id, -, heq⟩ := mem_map.mp hmem
              exact ⟨id, random id, hrandom id, heq.symm⟩
            · -- the stream goes on to disable what could not be evaluated
              intro plan hplan herror
              right
              refine ⟨i, ?_⟩
              have hafter : (p.1.streamStep d i (.commit fails)).1.streams i =
                  disablingPhase (brokenIds batch acked) stopping := by
                simp only [streamStep, hphase, commitBatch, hsome, hfails, Bool.or_self,
                  Bool.false_eq_true, ↓reduceIte, heq, setAt_self, brokenIds]
              rw [hafter, toDisable_disablingPhase]
              apply mem_map.mpr
              refine ⟨plan, mem_filter.mpr ⟨hplan, ?_⟩, rfl⟩
              exact Option.isSome_iff_ne_none.mpr herror
      · cases hcall
        apply disable
        exact hold.mono fun id hid => .inr hid
      · obtain ⟨lease, -, rfl⟩ := Option.map_eq_some_iff.mp hcall
        exact hold.of_same rfl rfl rfl
      · cases hcall

/-! ## One step of a manual fire or an admin call -/

theorem TrackingOk.indexed_manual (h : TrackingOk d p) (i : Nat) (o : ManualOp) :
    Indexed d.calendar (Pending (p.1.manualStep d i o).1) (p.1.manualStep d i o).1.storage := by
  obtain ⟨hstreams, hadmin, -⟩ := manualStep_frame (d := d) p.1 i o
  have hold : Indexed d.calendar (Pending (p.1.manualStep d i o).1) p.1.storage := by
    apply h.indexed.mono
    intro id hpending
    simp only [Pending, hstreams, hadmin]
    exact hpending
  rw [manualStep_storage]
  cases hcall : manualCall d p.1 i o with
  | none => exact hold
  | some call =>
    simp only [manualCall] at hcall
    split at hcall
    · rename_i fails scheduleId fire attempt config state hmanual
      split at hcall
      · cases hcall
      · cases hcall
        show Indexed _ _ (p.1.storage.commitEntry (manualCommit scheduleId state p.1.storage.now
          (firedTicks d p.1 scheduleId fire config state))).1
        exact hold.commitEntry (fun _ _ _ _ => .inr (.inl rfl)) h.stored
    · cases hcall

theorem TrackingOk.indexed_admin (hcal : d.calendar.Lawful)
    (h : TrackingOk d p) (i : Nat) (o : AdminOp) (hc : WritesCurrent p (.admin i o)) :
    Indexed d.calendar (Pending (p.1.adminStep d i o)) (p.1.adminStep d i o).storage := by
  -- a call that is done with one entry, or with none
  have hone : ∀ (s' : SchedulerSystem) (id : String), s'.streams = p.1.streams →
      (∀ j, j ≠ i → s'.admin j = p.1.admin j) →
      (∀ id' ∈ toWrite (p.1.admin i), id' = id ∨ id' ∈ toWrite (s'.admin i)) →
      Indexed d.calendar (fun id' => id' = id ∨ Pending s' id') p.1.storage :=
    fun s' id hstreams hother hown => h.indexed.mono (pending_admin _ hstreams hother hown)
  have hnone : ∀ s' : SchedulerSystem, s'.streams = p.1.streams →
      (∀ j, j ≠ i → s'.admin j = p.1.admin j) → toWrite (p.1.admin i) = [] →
      Indexed d.calendar (Pending s') p.1.storage := by
    intro s' hstreams hother hown
    apply h.indexed.mono
    intro id hpending
    have hstill := pending_admin (fun _ => False) hstreams hother
      (fun id hid => by simp [hown] at hid) id hpending
    exact hstill.resolve_left not_false
  have hset : ∀ (call : Option AdminCall) j, j ≠ i →
      setAt p.1.admin i call j = p.1.admin j := fun call j hj => setAt_ne _ _ hj
  simp only [adminStep]
  split
  · rename_i instance_ config token hcall
    simp only [register]
    split
    · exact hnone _ rfl (fun _ _ => rfl) (by simp [hcall, toWrite])
    · apply Indexed.upsertSchedule
      · intro henabled
        left
        refine ⟨i, ?_⟩
        have henabled' : config.isEnabled = true := henabled
        simp [setAt_self, henabled', toWrite]
      · exact hone _ config.id rfl (hset _) (by simp [hcall, toWrite])
  · rename_i id hcall
    apply Indexed.setNextRun
    · intro config hget _
      exact .of_le hcal (h.stored.valid id config hget).2 (.inl (Int.le_refl _))
    · exact hone _ id rfl (hset _) (by simp [hcall, toWrite])
  · rename_i scheduleId patch hcall
    simp only [loadUpdate]
    split
    · exact hnone _ rfl (fun _ _ => rfl) (by simp [hcall, toWrite])
    · split
      · exact hnone _ rfl (fun _ _ => rfl) (by simp [hcall, toWrite])
      · exact hnone _ rfl (hset _) (by simp [hcall, toWrite])
  · rename_i token config hcall
    apply Indexed.upsertSchedule
    · intro henabled
      left
      refine ⟨i, ?_⟩
      simp [setAt_self, henabled, toWrite]
    · exact hone _ config.id rfl (hset _) (by simp [hcall, toWrite])
  · rename_i config hcall
    simp only [WritesCurrent, hcall] at hc
    have hv := h.admins i
    rw [hcall] at hv
    split
    · rename_i e herror
      -- the config cannot be evaluated, so it has no next run to be late for
      have hrest := hone (p.1.toAdmin i none) config.id rfl (hset _) (by simp [hcall, toWrite])
      intro id current hget hnot
      by_cases hid : id = config.id
      · rw [hid] at hget hnot
        have hsame := (hc current hget).resolve_right hnot
        have hnorun : computeNextRun d.calendar current p.1.storage.now = .error e :=
          (computeNextRun_congr hsame).symm.trans herror
        constructor
        · intro _ o ho
          simp [toAdmin, hnorun] at ho
        · intro o r ho
          simp [toAdmin, hnorun] at ho
      · exact hrest id current hget fun hex => hex.elim hid hnot
    · rename_i nextRun hnext
      apply Indexed.setNextRun
      · intro current hget hnot
        have hsame := (hc current hget).resolve_right hnot
        have hv' := (h.stored.valid config.id current hget).2
        exact .of_computed hv' ((computeNextRun_congr hsame).symm.trans hnext)
      · exact hone _ config.id rfl (hset _) (by simp [hcall, toWrite])
  · rename_i id hcall
    apply disable
    exact hone _ id rfl (fun _ _ => rfl) (by simp [hcall, toWrite])
  · rename_i id hcall
    apply enable hcal h.stored h.now_nonneg
    exact hnone _ rfl (fun _ _ => rfl) (by simp [hcall, toWrite])
  · rename_i id hcall
    apply Indexed.deleteSchedule
    exact hnone _ rfl (fun _ _ => rfl) (by simp [hcall, toWrite])
  · exact h.indexed

/-! ## What is stored and held stays valid -/

theorem storageCall_validTiming (hadmins : ∀ i, AdminFits (s.admin i))
    {o : SchedulerOp} {call : SchedulerStorageOp} (h : storageCall d s o = some call)
    (config : DurableScheduleConfig) (token : String)
    (hcall : call = .upsertSchedule config token ∨ call = .insertSchedule config token) :
    ValidTiming config := by
  obtain ⟨given, ns, hvalid, rfl⟩ | ⟨i, hadmin⟩ := storageCall_stores h hcall
  · have hv := validTiming_of_validate hvalid
    exact ⟨hv.interval, hv.jitter⟩
  · have hfits := hadmins i
    rw [hadmin] at hfits
    exact hfits

theorem BatchFits.later {now later : Int} {batch : PollBatch}
    (hle : now ≤ later) (h : BatchFits d now planning batch) :
    BatchFits d later planning batch := by
  obtain ⟨hvalid, hpast, hplans⟩ := h
  exact ⟨hvalid, Int.le_trans hpast hle, hplans⟩

theorem PhaseFits.later {now later : Int} {phase : StreamPhase}
    (hle : now ≤ later) (h : PhaseFits d now planning phase) :
    PhaseFits d later planning phase := by
  cases phase with
  | configsLoaded lease ids configs => exact h
  | loaded lease ids configs states => exact h
  | emitting batch index acked | committing batch acked stopping => exact BatchFits.later hle h
  | _ => trivial

private theorem phaseFits_idle {now : Int} (o : StreamOp)
    {phase : StreamPhase} (h : PhaseFits d now planning phase) :
    PhaseFits d now (planningAfter now planning o phase) phase := by
  cases phase with
  | configsLoaded lease ids configs => exact h
  | loaded lease ids configs states => exact h
  | emitting batch index acked | committing batch acked stopping => cases o <;> exact h
  | _ => trivial

private theorem phaseFits_step (h : TrackingOk d p) (i : Nat)
    (o : StreamOp) (hc : WritesCurrent p (.stream i o)) :
    PhaseFits d p.1.storage.now
      (planningAfter p.1.storage.now (p.2.planning i) o (p.1.streams i))
      ((p.1.streamStep d i o).1.streams i) := by
  have hold := h.phases i
  have hstep := phaseStep (d := d) p.1 i o
  have hrandom : ∀ random, o = .plan random → ∀ id, random id < 1 := by
    intro random ho id
    rw [ho] at hc
    exact (hc id).2
  generalize p.1.streams i = before at hold hstep
  generalize (p.1.streamStep d i o).1.streams i = after at hstep
  generalize (p.1.streamStep d i o).2 = answer at hstep
  clear hc
  cases hstep with
  | idle => exact phaseFits_idle o hold
  | loadSchedules lease ids =>
    exact fun id config hget => h.stored.valid id config (loadSchedules_get hget)
  | planEmpty lease ids configs states random
  | planTicks lease ids configs states random tick htick =>
    exact ⟨hold, Int.le_refl _, ids, random, hrandom random rfl, rfl⟩
  | loadScheduleStates lease ids configs | pullTick batch index acked tick htick
  | pullEnd batch index acked | stopEmitting batch index acked
  | stopCommitting batch acked stopping => exact hold
  | commitNothing fails batch acked stopping => cases stopping <;> trivial
  | commitReady batch acked stopping conflicts hcommit | disable id ids stopping =>
    simp only [disablingPhase]
    split
    · cases stopping <;> trivial
    · trivial
  | _ => trivial

theorem TrackingOk.next (hcal : d.calendar.Lawful)
    (o : SchedulerOp) (hc : WritesCurrent p o) (h : TrackingOk d p) :
    TrackingOk d ((recorded d).next p o) := by
  show TrackingOk d ((schedulerSystem d).next p.1 o, p.2.after d p.1 o)
  have hnow : p.1.storage.now ≤ ((schedulerSystem d).next p.1 o).storage.now := by
    rw [next_storage]
    cases storageCall d p.1 o with
    | none => exact Int.le_refl _
    | some call => exact now_le_next p.1.storage call
  constructor
  · exact Int.le_trans h.now_nonneg hnow
  · show StoredOk ((schedulerSystem d).next p.1 o).storage
    rw [next_storage]
    cases hcall : storageCall d p.1 o with
    | none => exact h.stored
    | some call => exact h.stored.call call (storageCall_validTiming h.admins hcall)
  · intro j
    cases o with
    | stream i o =>
      by_cases hj : j = i
      · subst hj
        simp only [History.after, setAt_self]
        exact (phaseFits_step h j o hc).later hnow
      · have hother : ((schedulerSystem d).next p.1 (.stream i o)).streams j = p.1.streams j :=
          (streamStep_frame p.1 i o).2.2 j hj
        simp only [History.after, setAt_ne _ _ hj, hother]
        exact (h.phases j).later hnow
    | manual i o =>
      have hother : ((schedulerSystem d).next p.1 (.manual i o)).streams = p.1.streams :=
        (manualStep_frame p.1 i o).1
      simp only [History.after, hother]
      exact (h.phases j).later hnow
    | admin i o =>
      have hother : ((schedulerSystem d).next p.1 (.admin i o)).streams = p.1.streams :=
        (adminStep_frame p.1 i o).1
      simp only [History.after, hother]
      exact (h.phases j).later hnow
    | advance ms => exact (h.phases j).later hnow
  · exact next_held h.admins trivial (fun _ => trivial) (fun _ => validTiming_of_validate)
      (fun _ => id) o
  · cases o with
    | advance ms => exact h.indexed.advance hcal ms
    | stream i o => exact h.indexed_stream hcal i o hc
    | manual i o => exact h.indexed_manual i o
    | admin i o => exact h.indexed_admin hcal i o hc

/-! ## The claim -/

theorem FutureOccurrence.nextRun {config : DurableScheduleConfig} {now o : Int}
    (hcal : d.calendar.Lawful) (hv : ValidTiming config)
    (h : FutureOccurrence d.calendar config now o) :
    ∃ next, computeNextRun d.calendar config now = .ok (some next) ∧ next ≤ o := by
  obtain ⟨⟨t, hle, ht⟩, hstart, hend⟩ := h
  obtain ⟨c, hc, hco⟩ := nextOccurrence_mono hcal hle ht
  have hgt := nextOccurrence_gt hcal hv hc
  refine ⟨max c (config.startAt.getD c), computeNextRun_some_iff.mpr ⟨?_, c, hc, ?_, rfl⟩, ?_⟩
  · intro endAt hendAt
    have := hend endAt hendAt
    omega
  · intro endAt hendAt
    have := hend endAt hendAt
    omega
  · cases hstartAt : config.startAt with
    | none =>
      simp only [Option.getD_none]
      omega
    | some startAt =>
      have := hstart startAt hstartAt
      simp only [Option.getD_some]
      omega

end Promin.Scheduler

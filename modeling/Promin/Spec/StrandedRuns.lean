import Promin.Durable.Scanners
import Promin.Spec.Fencing

/-!
# Stranded runs

A run that has not ended must be found again after the worker that drove it is
gone: by the orphan scan while it is pending, running or compensating, and while
it is suspended through a step row that sleeps or waits for a signal.
-/

namespace Promin.Durable

open InMemoryWorkflowStorage Option JsMap
open List hiding isEmpty_iff

/-! ## Found by a scan -/

def TimersDue (wf : MutableWorkflow) (now : Int) : Prop :=
  ∀ step ∈ wf.steps.values, step.status = .sleeping → due now step.wakeAt = true

instance (wf : MutableWorkflow) (now : Int) : Decidable (TimersDue wf now) :=
  inferInstanceAs (Decidable (∀ step ∈ wf.steps.values, _))

/-- Once the lease is over and the timers are due, the orphan scan or the timer scan
    lists the run. -/
def FoundWhenDue (s : InMemoryWorkflowStorage) (w : String) (wf : MutableWorkflow) : Prop :=
  ∀ now updatedBefore limit : Int, s.leases.isHeld w now = false → TimersDue wf now →
    wf.updatedAt < updatedBefore → (s.workflows.size : Int) ≤ limit →
    w ∈ (s.listOrphanedRuns now updatedBefore limit none).map (·.workflowId) ∨
    w ∈ (s.listDueTimers now limit none).map (·.workflowId)

/-- A step row waits for a signal, and the signal scan lists the run once the signal is
    delivered. While it is the signal of a child and not delivered, the scan of waits on
    children lists the run. -/
def FoundOnSignal (s : InMemoryWorkflowStorage) (w : String) (wf : MutableWorkflow) : Prop :=
  ∃ step ∈ wf.steps.values, ∃ signalName, step.status = .waitingForSignal ∧
    step.signalName = some signalName ∧ ∀ limit : Int, (s.workflows.size : Int) ≤ limit →
      (∀ payload, w ∈
        ((s.deliverSignal w signalName payload).listSignalWakeups limit none).map
          (·.workflowId)) ∧
      (isChildEndedSignal signalName = true →
        (((s.signals.get w).getD []).any fun d => d.signalName == signalName) = false →
        w ∈ (s.listChildEndedWaits limit none).map (·.workflowId))

/-- Every run that has not ended can be found. -/
def NoneStranded (s : InMemoryWorkflowStorage) : Prop :=
  ∀ w wf, s.workflows.get w = some wf → wf.status.isTerminal = false →
    FoundWhenDue s w wf ∨ FoundOnSignal s w wf

def Waits (status : StepStatus) (wakeAt : Option Int) (signalName : Option String) : Prop :=
  (status = .sleeping ∧ wakeAt.isSome = true) ∨
    (status = .waitingForSignal ∧ signalName.isSome = true)

/-- The step row is what a suspended run can be woken by. -/
def StepState.waits (step : StepState) : Prop := Waits step.status step.wakeAt step.signalName

/-- A call as the runner makes it: suspends put a step to sleep or make it wait for a
    signal, and runs are created in the namespace the storage scans. `resetSteps` is an
    operator's call. -/
def RunnerCall (s : InMemoryWorkflowStorage) : StorageOp → Prop
  | .suspendWorkflow _ _ u _ => Waits u.status u.wakeAt u.signalName
  | .createWorkflow p _ => truthy s.ns = true → s.resolveNamespace p.ns = s.ns
  | .resetSteps _ _ => False
  | _ => True

/-- The call completes or fails the last waiting steps of a suspended run. -/
def SettlesLastWait (s : InMemoryWorkflowStorage) (o : StorageOp) : Prop :=
  ∃ w wf, s.workflows.get w = some wf ∧ wf.status = .suspended ∧ settledSteps s w o ≠ [] ∧
    ∀ name step, wf.steps.get name = some step → step.waits → name ∈ settledSteps s w o

/-! ## What the scans list -/

variable {w : String} {wf : MutableWorkflow} {s : InMemoryWorkflowStorage}

private theorem mem_scanWorkflows {α : Type}
    {limit : Int} {pick : MutableWorkflow → Option α} {row : α}
    (hget : s.workflows.get w = some wf) (hscope : s.inScope wf = true)
    (hpick : pick wf = some row) (hlimit : (s.workflows.size : Int) ≤ limit) :
    row ∈ s.scanWorkflows limit none pick := by
  unfold scanWorkflows
  simp only [map_none, getD_none, filter_true]
  set ids := s.workflows.keys.insertionSort fun a b => a ≤ b with hids
  have hperm : ids.Perm s.workflows.keys := perm_insertionSort _ _
  have hlen : ids.length = s.workflows.size := by
    rw [hperm.length_eq]
    simp [JsMap.keys, JsMap.size]
  rw [take_of_length_le]
  · refine mem_filterMap.mpr ⟨w, ?_, ?_⟩
    · rw [hperm.mem_iff, mem_keys_iff, hget]
      rfl
    · simp [hget, hscope, hpick]
  · have hle := length_filterMap_le (fun id => (s.workflows.get id).bind fun wf =>
      if s.inScope wf then pick wf else none) ids
    omega

private theorem mem_stepsByName (wf : MutableWorkflow) (step : StepState) :
    step ∈ stepsByName wf ↔ step ∈ wf.steps.values :=
  (perm_insertionSort _ _).mem_iff

theorem timerOf_workflowId {now : Int} {step : StepState}
    {row : WorkflowWakeup} (h : timerOf now wf step = some row) :
    row.workflowId = wf.workflowId := by
  unfold timerOf at h
  split at h
  · cases h
    rfl
  · split at h
    · cases h
      rfl
    · cases h

theorem signalOf_workflowId {delivered : List SignalState}
    {step : StepState} {row : WorkflowWakeup} (h : signalOf delivered wf step = some row) :
    row.workflowId = wf.workflowId := by
  unfold signalOf at h
  split at h
  · obtain ⟨signal, -, rfl⟩ := map_eq_some_iff.mp h
    rfl
  · cases h

section

variable {s : InMemoryWorkflowStorage} {w : String} {wf : MutableWorkflow} {limit : Int}
  (hget : s.workflows.get w = some wf) (hid : wf.workflowId = w) (hscope : s.inScope wf = true)
  (hlimit : (s.workflows.size : Int) ≤ limit)

include hget hid hscope hlimit

variable {step : StepState}

private theorem mem_scan_of_step {pick : StepState → Option WorkflowWakeup}
    (hstatus : wf.status = .suspended) (hmem : step ∈ wf.steps.values)
    (hstep : (pick step).isSome = true)
    (hids : ∀ step row, pick step = some row → row.workflowId = wf.workflowId)
    {scan : MutableWorkflow → Option WorkflowWakeup}
    (hscan : scan wf = if wf.status ≠ .suspended then none else (stepsByName wf).findSome? pick) :
    w ∈ (s.scanWorkflows limit none scan).map (·.workflowId) := by
  have hfound : ((stepsByName wf).findSome? pick).isSome = true :=
    List.findSome?_isSome_iff.mpr ⟨step, (mem_stepsByName wf step).mpr hmem, hstep⟩
  obtain ⟨row, hrow⟩ := isSome_iff_exists.mp hfound
  obtain ⟨step', -, hpick⟩ := exists_of_findSome?_eq_some hrow
  refine mem_map.mpr ⟨row, mem_scanWorkflows hget hscope ?_ hlimit, ?_⟩
  · rw [hscan, if_neg (not_not.mpr hstatus), hrow]
  · rw [hids step' row hpick, hid]

private theorem mem_listOrphanedRuns {now updatedBefore : Int}
    (hopen : wf.status.isTerminal = false) (hstatus : wf.status ≠ .suspended)
    (hheld : s.leases.isHeld w now = false) (hbefore : wf.updatedAt < updatedBefore) :
    w ∈ (s.listOrphanedRuns now updatedBefore limit none).map (·.workflowId) := by
  have hscanned : ¬ (wf.status ≠ .pending ∧ wf.status ≠ .running ∧ wf.status ≠ .compensating) := by
    revert hopen hstatus
    cases wf.status <;> simp [WorkflowStatus.isTerminal]
  have hfresh : ¬ wf.updatedAt ≥ updatedBefore := by omega
  let row : OrphanedRun := {
    workflowId := wf.workflowId, workflowName := wf.workflowName, version := wf.version
    status := wf.status, input := wf.input, metadata := wf.metadata }
  refine mem_map.mpr ⟨row, mem_scanWorkflows hget hscope ?_ hlimit, hid⟩
  simp only [hscanned, hfresh, hid, hheld, ↓reduceIte, Bool.false_eq_true, row]

section

variable (hstatus : wf.status = .suspended)
include hstatus

section

variable (hmem : step ∈ wf.steps.values)
include hmem

private theorem mem_listDueTimers {now : Int}
    (hsleep : step.status = .sleeping) (hdue : due now step.wakeAt = true) :
    w ∈ (s.listDueTimers now limit none).map (·.workflowId) := by
  refine mem_scan_of_step hget hid hscope hlimit hstatus hmem ?_
    (fun _ _ => timerOf_workflowId) rfl
  simp [timerOf, hsleep, hdue]

private theorem mem_listSignalWakeups {signalName : String}
    (hwait : step.status = .waitingForSignal) (hname : step.signalName = some signalName)
    (payload : JsValue) :
    w ∈ ((s.deliverSignal w signalName payload).listSignalWakeups limit none).map
      (·.workflowId) := by
  refine mem_scan_of_step (s := s.deliverSignal w signalName payload) hget hid hscope hlimit
    hstatus hmem ?_ (fun _ _ => signalOf_workflowId) rfl
  have hdelivered : (((s.deliverSignal w signalName payload).signals.get wf.workflowId).getD
      []).any (fun d => d.signalName == signalName) = true := by
    rw [hid]
    simp [deliverSignal]
  simp only [signalOf, hwait, hname, isSome_map, List.find?_isSome]
  simpa using hdelivered

private theorem mem_listChildEndedWaits {signalName : String}
    (hwait : step.status = .waitingForSignal) (hname : step.signalName = some signalName)
    (hchild : isChildEndedSignal signalName = true)
    (hopen : (((s.signals.get w).getD []).any fun d => d.signalName == signalName) = false) :
    w ∈ (s.listChildEndedWaits limit none).map (·.workflowId) := by
  let waits := (stepsByName wf).filterMap (childWaitOf ((s.signals.get wf.workflowId).getD []))
  have hwaits : ⟨step.stepName, signalName⟩ ∈ waits := by
    refine mem_filterMap.mpr ⟨step, (mem_stepsByName wf step).mpr hmem, ?_⟩
    rw [hid]
    simp only [childWaitOf, hwait, hname, hchild, hopen, Bool.not_false, Bool.and_self, ↓reduceIte]
  have hne : waits.isEmpty = false := by
    rw [← Bool.not_eq_true, List.isEmpty_iff]
    exact ne_nil_of_mem hwaits
  refine mem_map.mpr ⟨⟨wf.workflowId, waits⟩, mem_scanWorkflows hget hscope ?_ hlimit, hid⟩
  show (if _ then none else if waits.isEmpty = true then none else some _) = _
  simp only [hstatus, ne_eq, not_true_eq_false, ↓reduceIte, hne, Bool.false_eq_true, waits]

end

end

end

/-! ## What one call preserves -/

/-- The row is found under its id by the scans of its namespace, and has something to wake
    it by while it is suspended. -/
structure Findable (s : InMemoryWorkflowStorage) (w : String) (wf : MutableWorkflow) : Prop where
  workflowId : wf.workflowId = w
  inScope : truthy s.ns = true → wf.ns = s.ns
  waits : wf.status = .suspended → ∃ name step, wf.steps.get name = some step ∧ step.waits

/-- Within one call: what wakes the run is not among the steps the call settles. -/
private structure FindableAfter (s : InMemoryWorkflowStorage) (o : StorageOp) (w : String)
    (wf : MutableWorkflow) : Prop where
  workflowId : wf.workflowId = w
  inScope : truthy s.ns = true → wf.ns = s.ns
  waits : wf.status = .suspended → ∃ name step, wf.steps.get name = some step ∧ step.waits ∧
    name ∉ settledSteps s w o

variable {o : StorageOp}

private theorem FindableAfter.sameRun
    {wf' : MutableWorkflow} (h : FindableAfter s o w wf) (hrun : SameRun wf wf')
    (hwaits : wf'.status = .suspended → ∃ name step, wf'.steps.get name = some step ∧
      step.waits ∧ name ∉ settledSteps s w o) : FindableAfter s o w wf' where
  workflowId := hrun.workflowId.trans h.workflowId
  inScope := fun hns => hrun.ns.trans (h.inScope hns)
  waits := hwaits

private theorem not_suspended_of_terminal {status : WorkflowStatus}
    (h : status.isTerminal = true) : status ≠ .suspended := by
  rintro rfl
  exact nomatch h

private theorem RowStep.findable
    {row row' : Option MutableWorkflow} (h : RowStep s o w row row') (hcall : RunnerCall s o)
    (hrow : ∀ wf, row = some wf → FindableAfter s o w wf) :
    ∀ wf, row' = some wf → FindableAfter s o w wf := by
  intro wf' hwf'
  cases h with
  | created ho hid hns hstatus =>
    cases hwf'
    subst ho
    refine ⟨hid, fun hscoped => hns.trans (hcall hscoped), fun hsuspended => ?_⟩
    rw [hstatus] at hsuspended
    exact nomatch hsuspended
  | settled hname hsteps hstatus hout hrun =>
    cases hwf'
    refine (hrow _ rfl).sameRun hrun fun hsuspended => ?_
    rw [hstatus] at hsuspended
    split at hsuspended
    · exact nomatch hsuspended
    · obtain ⟨name, step, hget, hwaits, hkept⟩ := (hrow _ rfl).waits hsuspended
      refine ⟨name, step, ?_, hwaits, hkept⟩
      rw [hsteps, get_set_ne, hget]
      rintro rfl
      exact hkept hname
  | noted hstatus hsteps hout hrun =>
    cases hwf'
    refine (hrow _ rfl).sameRun hrun fun hsuspended => ?_
    obtain ⟨name, step, hget, hwaits, hkept⟩ := (hrow _ rfl).waits (hstatus ▸ hsuspended)
    obtain ⟨step', hget', hsame⟩ := hsteps name step hget
    refine ⟨name, step', hget', ?_, hkept⟩
    unfold StepState.waits
    rw [hsame.status, hsame.wakeAt, hsame.signalName]
    exact hwaits
  | ended hopen hend hrun =>
    cases hwf'
    exact (hrow _ rfl).sameRun hrun fun hs => absurd hs (not_suspended_of_terminal hend)
  | @suspended wf _ stepName u g ho hfence hstatus hsteps hrun =>
    cases hwf'
    subst ho
    refine (hrow _ rfl).sameRun hrun fun _ => ?_
    refine ⟨stepName, s.suspendedStep wf stepName u, ?_, hcall, not_mem_nil⟩
    rw [hsteps, get_set_self]
  | compensating hopen hstatus hrun | fresh ho hstatus hrun =>
    cases hwf'
    refine (hrow _ rfl).sameRun hrun fun hs => ?_
    rw [hstatus] at hs
    exact nomatch hs
  | reset ho => exact (ho ▸ hcall : RunnerCall s (.resetSteps w _)).elim
  | purged ho hend => exact nomatch hwf'

private theorem step_findable (hcall : RunnerCall s o) (hlast : ¬ SettlesLastWait s o)
    (h : ∀ w wf, s.workflows.get w = some wf → Findable s w wf) :
    ∀ w wf, (storage.next s o).workflows.get w = some wf → Findable (storage.next s o) w wf := by
  intro w wf hget
  have hbefore : ∀ wf, s.workflows.get w = some wf → FindableAfter s o w wf := by
    intro wf hwf
    refine ⟨(h w wf hwf).workflowId, (h w wf hwf).inScope, fun hsuspended => ?_⟩
    by_contra hnone
    push Not at hnone
    obtain ⟨name, step, hstep, hwaits⟩ := (h w wf hwf).waits hsuspended
    exact hlast ⟨w, wf, hwf, hsuspended, ne_nil_of_mem (hnone name step hstep hwaits), hnone⟩
  have hafter : ∀ wf, (storage.next s o).workflows.get w = some wf → FindableAfter s o w wf := by
    have hsteps := step_row s o w
    generalize (storage.next s o).workflows.get w = row' at hsteps
    induction hsteps with
    | refl => exact hbefore
    | tail _ hstep ih => exact hstep.findable hcall ih
  have hns := (step_locks s o).ns
  refine ⟨(hafter wf hget).workflowId, ?_, fun hsuspended => ?_⟩
  · rw [hns]
    exact (hafter wf hget).inScope
  · obtain ⟨name, step, hstep, hwaits, -⟩ := (hafter wf hget).waits hsuspended
    exact ⟨name, step, hstep, hwaits⟩

private theorem noneStranded_of_findable
    (h : ∀ w wf, s.workflows.get w = some wf → Findable s w wf) : NoneStranded s := by
  intro w wf hget hopen
  obtain ⟨hid, hns, hwaits⟩ := h w wf hget
  have hscope : s.inScope wf = true := by
    unfold inScope
    cases hscoped : truthy s.ns with
    | false => rfl
    | true => simp [hns hscoped]
  by_cases hstatus : wf.status = .suspended
  · obtain ⟨name, step, hstep, hwait⟩ := hwaits hstatus
    have hmem : step ∈ wf.steps.values := (mem_values_iff _ _).mpr ⟨name, hstep⟩
    rcases hwait with ⟨hsleep, -⟩ | ⟨hsignal, hname⟩
    · left
      intro now updatedBefore limit hheld hdue hbefore hlimit
      exact .inr (mem_listDueTimers hget hid hscope hlimit hstatus hmem hsleep
        (hdue step hmem hsleep))
    · right
      obtain ⟨signalName, hname⟩ := isSome_iff_exists.mp hname
      refine ⟨step, hmem, signalName, hsignal, hname, fun limit hlimit => ⟨fun payload => ?_, ?_⟩⟩
      · exact mem_listSignalWakeups hget hid hscope hlimit hstatus hmem hsignal hname payload
      · exact mem_listChildEndedWaits hget hid hscope hlimit hstatus hmem hsignal hname
  · left
    intro now updatedBefore limit hheld hdue hbefore hlimit
    exact .inl (mem_listOrphanedRuns hget hid hscope hlimit hopen hstatus hheld hbefore)

/-- **No run is stranded** along a run of the runner's calls, unless a step write settles
    the last waiting step of a suspended run. -/
theorem no_run_stranded (config : StorageConfig) (ops : List StorageOp)
    (h : storage.Always (fun s o => RunnerCall s o ∧ ¬ SettlesLastWait s o) (.new config) ops) :
    ∀ before, before <+: ops → NoneStranded (storage.run (.new config) before) := by
  rintro before ⟨after, rfl⟩
  have hbefore := ((storage.always_append _ _ _ _).mp h).1
  refine noneStranded_of_findable ?_
  refine Machine.run_induction_always (P := fun s => ∀ w wf, s.workflows.get w = some wf →
    Findable s w wf) (fun s o hc => step_findable hc.1 hc.2) hbefore ?_
  intro w wf hget
  exact nomatch hget

private theorem not_settlesLastWait_of_nil
    (h : ∀ w, settledSteps s w o = []) : ¬ SettlesLastWait s o := by
  rintro ⟨w, wf, -, -, hne, -⟩
  exact hne (h w)

private theorem not_settlesLastWait_of_open
    (h : ∀ e ∈ s.workflows.entries, e.2.status ≠ .suspended) : ¬ SettlesLastWait s o := by
  rintro ⟨w, wf, hget, hsuspended, -⟩
  exact h (w, wf) ((mem_entries_iff _ _ _).mpr hget) hsuspended

/-- A worker completes a step, puts the run to sleep and lets its lock go. -/
theorem no_run_stranded_sleeping :
    let ops : List StorageOp := [
      .createWorkflow { workflowId := "w", workflowName := "order", input := .null } none,
      .tryLock "w" 10 none,
      .saveStepResult {
        workflowId := "w", stepName := "charge", result := .null, durationMs := 1
        startedAt := 0 } (some "1"),
      .suspendWorkflow "w" "nap" { status := .sleeping, wakeAt := some 5 } (some "1"),
      .releaseLock "w" (some "1")]
    NoneStranded (storage.run (.new { instanceId := "i" }) ops) := by
  intro ops
  refine no_run_stranded { instanceId := "i" } ops ?_ ops (prefix_refl ops)
  refine ⟨⟨nofun, not_settlesLastWait_of_nil fun _ => rfl⟩,
    ⟨trivial, not_settlesLastWait_of_nil fun _ => rfl⟩,
    ⟨trivial, not_settlesLastWait_of_open (by decide)⟩,
    ⟨.inl ⟨rfl, rfl⟩, not_settlesLastWait_of_nil fun _ => rfl⟩,
    ⟨trivial, not_settlesLastWait_of_nil fun _ => rfl⟩, trivial⟩

/-- A worker is woken by the timer, completes the sleeping step and crashes: the run stays
    suspended with nothing left to wake it, and no scan lists it again. -/
theorem settled_wait_counterexample :
    let ops : List StorageOp := [
      .createWorkflow { workflowId := "w", workflowName := "order", input := .null } none,
      .tryLock "w" 10 none,
      .suspendWorkflow "w" "nap" { status := .sleeping, wakeAt := some 5 } (some "1"),
      .releaseLock "w" (some "1"),
      .advance 5,
      .tryLock "w" 10 none,
      .saveStepResult {
        workflowId := "w", stepName := "nap", result := .null, durationMs := 1
        startedAt := 5 } (some "2")]
    ((storage.run (.new { instanceId := "i" }) ops).workflows.get "w").map (·.status) =
      some .suspended ∧
    ¬ NoneStranded (storage.run (.new { instanceId := "i" }) ops) := by
  intro ops
  refine ⟨by decide, fun hnone => ?_⟩
  have hsettled : ∀ wf, (storage.run (.new { instanceId := "i" }) ops).workflows.get "w" =
      some wf → (∀ step ∈ wf.steps.values, step.status = .completed) ∧ wf.updatedAt = 5 := by
    intro wf hget
    have hrow : (((storage.run (.new { instanceId := "i" }) ops).workflows.get "w").all fun wf =>
        (wf.steps.values.all fun step => decide (step.status = .completed)) &&
          decide (wf.updatedAt = 5)) = true := by decide
    rw [hget] at hrow
    simpa using hrow
  obtain ⟨wf, hget⟩ : ∃ wf, (storage.run (.new { instanceId := "i" }) ops).workflows.get "w" =
      some wf := isSome_iff_exists.mp (by decide)
  have hopen : wf.status.isTerminal = false := by
    have hrow : (((storage.run (.new { instanceId := "i" }) ops).workflows.get "w").all fun wf =>
        !wf.status.isTerminal) = true := by decide
    rw [hget] at hrow
    simpa using hrow
  obtain ⟨hsteps, hupdated⟩ := hsettled wf hget
  rcases hnone "w" wf hget hopen with hfound | ⟨step, hmem, -, hwait, -⟩
  · have hscans := hfound 100 100 1 (by decide) ?_ (by omega) (by decide)
    · revert hscans
      decide
    · intro step hmem hsleep
      rw [hsteps step hmem] at hsleep
      exact nomatch hsleep
  · rw [hsteps step hmem] at hwait
    exact nomatch hwait

end Promin.Durable

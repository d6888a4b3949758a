import Promin.Spec.StorageFrame

/-!
# What one storage call does to a run row

`step_row` says once what any call on the storage can do to the row of one run,
as a chain of `RowStep`s (a batch settles several steps of a run).
-/

namespace Promin.Durable

open InMemoryWorkflowStorage List JsMap

/-! ## Row steps -/

/-- The two rows agree on how the run ended. -/
structure SameOutcome (wf wf' : MutableWorkflow) : Prop where
  result : wf'.result = wf.result
  error : wf'.error = wf.error
  errorTag : wf'.errorTag = wf.errorTag
  tripwire : wf'.tripwire = wf.tripwire

structure SameRun (wf wf' : MutableWorkflow) : Prop where
  workflowId : wf'.workflowId = wf.workflowId
  ns : wf'.ns = wf.ns

structure SameWait (step step' : StepState) : Prop where
  stepName : step'.stepName = step.stepName
  status : step'.status = step.status
  wakeAt : step'.wakeAt = step.wakeAt
  signalName : step'.signalName = step.signalName
  signalTimeoutAt : step'.signalTimeoutAt = step.signalTimeoutAt

/-- Names of the steps of run `w` that the call completes or fails. -/
def settledSteps (s : InMemoryWorkflowStorage) (w : String) : StorageOp → List String
  | .saveStepResult r g =>
    if r.workflowId = w ∧ s.leases.checkFence s.now w g = .ok () then [r.stepName] else []
  | .saveStepFailure r g =>
    if r.workflowId = w ∧ s.leases.checkFence s.now w g = .ok () then [r.stepName] else []
  | .checkpointStep c g =>
    if c.workflowId = w ∧ s.leases.checkFence s.now w g = .ok () then [c.stepName] else []
  | .batchSaveStepResults records g =>
    if s.checkFences g (records.map (·.workflowId)) = .ok () then
      (records.filter fun r => r.workflowId == w).map (·.stepName)
    else []
  | _ => []

inductive RowStep (s : InMemoryWorkflowStorage) (o : StorageOp) (w : String) :
    Option MutableWorkflow → Option MutableWorkflow → Prop where
  | created {wf : MutableWorkflow} {p : CreateWorkflowParams} {g : FenceGuard}
      (ho : o = .createWorkflow p g) (hid : wf.workflowId = w)
      (hns : wf.ns = s.resolveNamespace p.ns) (hstatus : wf.status = .pending) :
      RowStep s o w none (some wf)
  /-- A step of the run completed or failed. -/
  | settled {wf wf' : MutableWorkflow} {step : StepState}
      (hname : step.stepName ∈ settledSteps s w o)
      (hsteps : wf'.steps = wf.steps.set step.stepName step)
      (hstatus : wf'.status = if wf.status = .pending then .running else wf.status)
      (hout : SameOutcome wf wf') (hrun : SameRun wf wf') : RowStep s o w (some wf) (some wf')
  /-- A write beside the run's progress: task rows, metadata, the compensation ledger. -/
  | noted {wf wf' : MutableWorkflow} (hstatus : wf'.status = wf.status)
      (hsteps : ∀ name step, wf.steps.get name = some step →
        ∃ step', wf'.steps.get name = some step' ∧ SameWait step step')
      (hout : SameOutcome wf wf') (hrun : SameRun wf wf') : RowStep s o w (some wf) (some wf')
  | ended {wf wf' : MutableWorkflow} (hopen : wf.status.isTerminal = false)
      (hend : wf'.status.isTerminal = true) (hrun : SameRun wf wf') :
      RowStep s o w (some wf) (some wf')
  | suspended {wf wf' : MutableWorkflow} {stepName : String} {u : StepUpdate} {g : FenceGuard}
      (ho : o = .suspendWorkflow w stepName u g) (hfence : FenceAccepts s w g)
      (hstatus : wf'.status = .suspended)
      (hsteps : wf'.steps = wf.steps.set stepName (s.suspendedStep wf stepName u))
      (hrun : SameRun wf wf') : RowStep s o w (some wf) (some wf')
  | compensating {wf wf' : MutableWorkflow} (hopen : wf.status.isTerminal = false)
      (hstatus : wf'.status = .compensating) (hrun : SameRun wf wf') :
      RowStep s o w (some wf) (some wf')
  | fresh {wf wf' : MutableWorkflow} {run : Option Int} {input : Option JsValue} {g : FenceGuard}
      (ho : o = .startFreshRun w run input g) (hstatus : wf'.status = .pending)
      (hrun : SameRun wf wf') : RowStep s o w (some wf) (some wf')
  | reset {wf wf' : MutableWorkflow} {names : List String} (ho : o = .resetSteps w names)
      (hrun : SameRun wf wf') : RowStep s o w (some wf) (some wf')
  | purged {wf : MutableWorkflow} {window : PurgeWindow} {limit : Int}
      (ho : o = .purgeCompleted window limit) (hend : wf.status.isTerminal = true) :
      RowStep s o w (some wf) none

abbrev RowSteps (s : InMemoryWorkflowStorage) (o : StorageOp) (w : String) :
    Option MutableWorkflow → Option MutableWorkflow → Prop :=
  Relation.ReflTransGen (RowStep s o w)

section

variable {s : InMemoryWorkflowStorage} {o : StorageOp} {w : String}

private theorem fenced_row {α : Type} {t : InMemoryWorkflowStorage} {workflowId : String}
    {guard_ : FenceGuard} {body : InMemoryWorkflowStorage × Except StorageError α}
    (h : FenceAccepts t workflowId guard_ →
      RowSteps s o w (t.workflows.get w) (body.1.workflows.get w)) :
    RowSteps s o w (t.workflows.get w) ((t.fenced workflowId guard_ body).1.workflows.get w) := by
  rcases fenced_cases t workflowId guard_ body with ⟨e, -, hrej⟩ | ⟨hok, hacc⟩
  · rw [hrej]
  · rw [hacc]
    exact h hok

private theorem putRun_row {t : InMemoryWorkflowStorage} {workflowId : String}
    {wf wf' : MutableWorkflow} (hget : t.workflows.get workflowId = some wf)
    (h : workflowId = w → RowStep s o w (some wf) (some wf')) :
    RowSteps s o w (t.workflows.get w) ((t.workflows.set workflowId wf').get w) := by
  by_cases hw : workflowId = w
  · subst hw
    rw [hget, get_set_self]
    exact .single (h rfl)
  · rw [get_set_ne _ _ hw]

/-! ## One lemma per call -/

variable (t : InMemoryWorkflowStorage)

private theorem markRunning_sameOutcome (wf : MutableWorkflow) :
    (t.markRunning wf).status = (if wf.status = .pending then .running else wf.status) ∧
      (t.markRunning wf).steps = wf.steps ∧ SameOutcome wf (t.markRunning wf) ∧
      SameRun wf (t.markRunning wf) := by
  unfold markRunning
  split <;> exact ⟨rfl, rfl, ⟨rfl, rfl, rfl, rfl⟩, ⟨rfl, rfl⟩⟩

private theorem settle_step {t : InMemoryWorkflowStorage} {wf : MutableWorkflow}
    {step : StepState} (hname : step.stepName ∈ settledSteps s w o) :
    RowStep s o w (some wf) (some (t.putStep (t.markRunning wf) step)) := by
  obtain ⟨hstatus, hsteps, hout, hrun⟩ := markRunning_sameOutcome t wf
  refine .settled hname ?_ hstatus ⟨hout.1, hout.2, hout.3, hout.4⟩ ⟨hrun.1, hrun.2⟩
  show (t.markRunning wf).steps.set _ _ = _
  rw [hsteps]

private theorem writeStepResult_row (r : StepResultRecord)
    (hname : r.workflowId = w → r.stepName ∈ settledSteps s w o) :
    RowSteps s o w (t.workflows.get w) ((t.writeStepResult r).workflows.get w) := by
  unfold writeStepResult
  cases hget : t.workflows.get r.workflowId with
  | none => exact .refl
  | some wf => exact putRun_row hget fun hw => settle_step (hname hw)

private theorem writeStepFailure_row (r : StepFailureRecord)
    (hname : r.workflowId = w → r.stepName ∈ settledSteps s w o) :
    RowSteps s o w (t.workflows.get w) ((t.writeStepFailure r).workflows.get w) := by
  unfold writeStepFailure
  cases hget : t.workflows.get r.workflowId with
  | none => exact .refl
  | some wf => exact putRun_row hget fun hw => settle_step (hname hw)

private theorem batch_row (records : List StepResultRecord) (t : InMemoryWorkflowStorage)
    (hnames : ∀ r ∈ records, r.workflowId = w → r.stepName ∈ settledSteps s w o) :
    RowSteps s o w (t.workflows.get w)
      ((records.foldl writeStepResult t).workflows.get w) := by
  induction records generalizing t with
  | nil => exact .refl
  | cons r rest ih =>
    have hfirst := writeStepResult_row t r (hnames r mem_cons_self)
    exact hfirst.trans (ih _ fun r' hr' => hnames r' (mem_cons_of_mem _ hr'))

private theorem SameWait.refl (step : StepState) : SameWait step step :=
  ⟨rfl, rfl, rfl, rfl, rfl⟩

private theorem noted_set {wf wf' : MutableWorkflow} {name : String} {step : StepState}
    (hstatus : wf'.status = wf.status) (hsteps : wf'.steps = wf.steps.set name step)
    (hsame : ∀ old, wf.steps.get name = some old → SameWait old step)
    (hout : SameOutcome wf wf') (hrun : SameRun wf wf') :
    RowStep s o w (some wf) (some wf') := by
  refine .noted hstatus (fun name' old hold => ?_) hout hrun
  rw [hsteps]
  by_cases hn : name = name'
  · subst hn
    exact ⟨step, get_set_self _ _ _, hsame old hold⟩
  · exact ⟨old, by rw [get_set_ne _ _ hn, hold], .refl old⟩

private theorem saveTask_row (workflowId stepName : String)
    (taskIndex : Int) (outcome : TaskOutcome) (g : FenceGuard) :
    RowSteps s o w (t.workflows.get w)
      ((t.saveTask workflowId stepName taskIndex outcome g).1.workflows.get w) := by
  refine fenced_row fun _ => ?_
  cases hget : t.workflows.get workflowId with
  | none => exact .refl
  | some wf =>
    refine putRun_row hget fun _ => noted_set rfl rfl ?_ ⟨rfl, rfl, rfl, rfl⟩ ⟨rfl, rfl⟩
    intro old hold
    simp only [hold, Option.getD_some]
    exact ⟨rfl, rfl, rfl, rfl, rfl⟩

private theorem endRun_row {f : MutableWorkflow → MutableWorkflow}
    {event : MutableWorkflow → WorkflowRunEvent} (workflowId : String) (g : FenceGuard)
    (hf : ∀ wf, (f wf).status.isTerminal = true ∧ SameRun wf (f wf)) :
    RowSteps s o w (t.workflows.get w) ((t.endRun workflowId g f event).1.workflows.get w) := by
  refine fenced_row fun _ => ?_
  cases hget : t.workflows.get workflowId with
  | none => exact .refl
  | some wf =>
    simp only
    split
    · exact .refl
    · rename_i hopen
      exact putRun_row hget fun _ =>
        .ended (by simpa using hopen) (hf wf).1 ⟨(hf wf).2.1, (hf wf).2.2⟩

private theorem not_terminal_of_cancellable {status : WorkflowStatus}
    (h : cancellable status = true) : status.isTerminal = false := by
  cases status with
  | pending | running | suspended => rfl
  | completed | failed | compensating | tripwire => exact nomatch h

private theorem cancelRun_row (cascade : Bool) (fuel : Nat) (t : InMemoryWorkflowStorage)
    (workflowId : String) :
    RowSteps s o w (t.workflows.get w) ((cancelRun cascade fuel t workflowId).workflows.get w) := by
  induction fuel generalizing t workflowId with
  | zero => exact .refl
  | succ fuel ih =>
    -- A cascade goes through the children one by one.
    have hchildren : ∀ (children : List String) (t : InMemoryWorkflowStorage),
        RowSteps s o w (t.workflows.get w)
          ((children.foldl (fun t child => cancelRun cascade fuel t child) t).workflows.get w) :=
      fun _ t => List.foldlRecOn (motive := fun t' : InMemoryWorkflowStorage =>
        RowSteps s o w (t.workflows.get w) (t'.workflows.get w)) _ _ .refl
          fun t' h child _ => h.trans (ih t' child)
    unfold cancelRun
    cases hget : t.workflows.get workflowId with
    | none => exact .refl
    | some wf =>
      simp only
      split
      · exact .refl
      · rename_i hcan
        have hopen := not_terminal_of_cancellable (by simpa using hcan)
        have hself : RowSteps s o w (t.workflows.get w)
            (((t.putRun workflowId (t.cancelled wf)).emit workflowId
              (.workflowFailed cancelledError t.now) true).workflows.get w) :=
          putRun_row hget fun _ => .ended hopen rfl ⟨rfl, rfl⟩
        split
        · exact hself.trans (hchildren _ _)
        · exact hself

private theorem purgeLoop_row {window : PurgeWindow} {limit : Int}
    (ho : o = .purgeCompleted window limit) (l : List (String × MutableWorkflow)) (deleted : Nat)
    (t : InMemoryWorkflowStorage) (hnd : (l.map Prod.fst).Nodup)
    (hrows : ∀ e ∈ l, t.workflows.get e.1 = some e.2) :
    RowSteps s o w (t.workflows.get w)
      ((purgeLoop window limit l deleted t).1.workflows.get w) := by
  induction l generalizing deleted t with
  | nil => exact .refl
  | cons e rest ih =>
    obtain ⟨id, wf⟩ := e
    simp only [map_cons, nodup_cons] at hnd
    simp only [purgeLoop]
    split
    · exact .refl
    · split
      · rename_i hpurge
        have hend : wf.status.isTerminal = true := by
          simp only [purgeable, Bool.and_eq_true] at hpurge
          exact hpurge.1
        have hget := hrows (id, wf) mem_cons_self
        have hself : RowSteps s o w (t.workflows.get w) ((t.workflows.delete id).get w) := by
          by_cases hw : id = w
          · subst hw
            rw [hget, get_delete_self]
            exact .single (.purged ho hend)
          · rw [get_delete_ne _ hw]
        refine hself.trans (ih (deleted + 1) (t.deleteRun id wf) hnd.2 fun e he => ?_)
        show (t.workflows.delete id).get e.1 = _
        rw [get_delete_ne, hrows e (mem_cons_of_mem _ he)]
        rintro rfl
        exact hnd.1 (mem_map.mpr ⟨e, he, rfl⟩)
      · exact ih deleted t hnd.2 fun e he => hrows e (mem_cons_of_mem _ he)

private theorem appendAttempt_workflows (attempts : List StepAttemptRecord) :
    (attempts.foldl appendAttempt t).workflows = t.workflows := by
  induction attempts generalizing t with
  | nil => rfl
  | cons a rest ih => exact (ih _).trans rfl

private theorem checkpointStep_row (c : StepCheckpoint) (g : FenceGuard) :
    RowSteps s (.checkpointStep c g) w (s.workflows.get w)
      ((s.checkpointStep c g).1.workflows.get w) := by
  refine fenced_row fun hok => ?_
  have hname : c.workflowId = w → c.stepName ∈ settledSteps s w (.checkpointStep c g) := by
    rintro rfl
    have hok' : s.leases.checkFence s.now c.workflowId g = .ok () := hok
    simp [settledSteps, hok']
  cases hget : s.workflows.get c.workflowId with
  | none => exact .refl
  | some wf =>
    simp only
    rw [← appendAttempt_workflows s c.attempts]
    cases c.outcome with
    | completed result => exact writeStepResult_row _ _ hname
    | failed error errorTag => exact writeStepFailure_row _ _ hname

private theorem createRun_row (p : CreateWorkflowParams) (g : FenceGuard) :
    RowSteps s (.createWorkflow p g) w (s.workflows.get w)
      ((s.createRun p).1.workflows.get w) := by
  unfold createRun
  simp only
  split
  · exact .refl
  · rename_i hfree
    by_cases hw : p.workflowId = w
    · subst hw
      have hnone : s.workflows.get p.workflowId = none := by
        cases hget : s.workflows.get p.workflowId with
        | none => rfl
        | some wf =>
          rw [hget] at hfree
          simp at hfree
      rw [hnone]
      simp only [get_set_self]
      exact .single (.created rfl rfl rfl rfl)
    · simp only [get_set_ne _ _ hw]
      exact .refl

end

/-! ## Any call -/

/-- **What one call can do to the row of one run.** -/
theorem step_row (s : InMemoryWorkflowStorage) (o : StorageOp) (w : String) :
    RowSteps s o w (s.workflows.get w) ((storage.next s o).workflows.get w) := by
  cases o with
  | advance ms | tryLock workflowId ms attemptId | releaseLock workflowId g
  | heartbeat workflowId ms g | deliverSignal workflowId signalName payload | createSignalToken p
  | notifyStepStarted workflowId stepName | loadJournal workflowId stepName
  | findDueSleeps now limit => exact .refl
  | createWorkflow p g =>
    show RowSteps s _ w _ ((s.createWorkflow p g).1.workflows.get w)
    unfold createWorkflow
    simp only
    split
    · split
      · exact .refl
      · exact fenced_row fun _ => createRun_row p g
    · exact createRun_row p g
  | saveStepResult r g =>
    refine fenced_row fun hok => writeStepResult_row s r ?_
    -- the fence accepts the write: its row is among the settled ones
    rintro rfl
    have hok' : s.leases.checkFence s.now r.workflowId g = .ok () := hok
    simp [settledSteps, hok']
  | batchSaveStepResults records g =>
    show RowSteps s _ w _ ((s.batchSaveStepResults records g).1.workflows.get w)
    unfold batchSaveStepResults
    split
    · exact .refl
    · rename_i hok
      refine batch_row records s fun r hr hw => ?_
      simp only [settledSteps, hok, ↓reduceIte, mem_map, mem_filter, beq_iff_eq]
      exact ⟨r, ⟨hr, hw⟩, rfl⟩
  | saveStepFailure r g =>
    refine fenced_row fun hok => writeStepFailure_row s r ?_
    rintro rfl
    have hok' : s.leases.checkFence s.now r.workflowId g = .ok () := hok
    simp [settledSteps, hok']
  | saveTask workflowId stepName taskIndex outcome g => exact saveTask_row s _ _ _ _ g
  | completeWorkflow workflowId result g | failWorkflow workflowId error errorTag g
  | tripwireWorkflow workflowId reason g =>
    exact endRun_row s workflowId g fun _ => ⟨rfl, rfl, rfl⟩
  | cancelWorkflow workflowId cascade g => exact fenced_row fun _ => cancelRun_row cascade _ s _
  | suspendWorkflow workflowId stepName u g =>
    refine fenced_row fun hok => ?_
    cases hget : s.workflows.get workflowId with
    | none => exact .refl
    | some wf =>
      refine putRun_row hget ?_
      rintro rfl
      -- no look at the status: an ended run is suspended too
      exact .suspended rfl hok rfl rfl ⟨rfl, rfl⟩
  | setWorkflowMetadata workflowId patch g =>
    refine fenced_row fun _ => ?_
    cases hget : s.workflows.get workflowId with
    | none => exact .refl
    | some wf =>
      exact putRun_row hget fun _ => .noted rfl (fun _ step hstep => ⟨step, hstep, .refl step⟩)
        ⟨rfl, rfl, rfl, rfl⟩ ⟨rfl, rfl⟩
  | startFreshRun workflowId run input g =>
    refine fenced_row fun _ => ?_
    cases hget : s.workflows.get workflowId with
    | none => exact .refl
    | some wf =>
      simp only
      split
      · exact .refl
      · refine putRun_row hget ?_
        rintro rfl
        exact .fresh rfl rfl ⟨rfl, rfl⟩
  | resetSteps workflowId stepNames =>
    show RowSteps s _ w _ ((s.resetSteps workflowId stepNames).1.workflows.get w)
    unfold resetSteps
    cases hget : s.workflows.get workflowId with
    | none => exact .refl
    | some wf =>
      simp only
      split
      · exact .refl
      · refine putRun_row hget ?_
        rintro rfl
        refine .reset rfl ?_
        split <;> exact ⟨rfl, rfl⟩
  | purgeCompleted window limit =>
    exact purgeLoop_row rfl s.workflows.entries 0 s s.workflows.nodup
      fun e he => (mem_entries_iff _ _ _).mp he
  | completeSignalToken tokenId value now =>
    show RowSteps s _ w _ ((s.completeSignalToken tokenId value now).1.workflows.get w)
    unfold completeSignalToken
    simp only
    split
    · exact .refl
    · split <;> exact .refl
  | appendStreamChunk p g | saveStepAttempt record g
  | appendEntry a activityName payloadHash exit g | completePendingEntry a exit g
  | discardJournalEntries workflowId stepName slots g => exact fenced_row fun _ => .refl
  | checkpointStep c g => exact checkpointStep_row c g
  | beginCompensation workflowId error errorTag g =>
    refine fenced_row fun _ => ?_
    cases hget : s.workflows.get workflowId with
    | none => exact .refl
    | some wf =>
      simp only
      split
      · exact .refl
      · split
        · exact .refl
        · rename_i hcan
          -- no ended run is `cancellable`
          have hopen := not_terminal_of_cancellable (by simpa using hcan)
          exact putRun_row hget fun _ => .compensating hopen rfl ⟨rfl, rfl⟩
  | saveStepCompensation workflowId stepName status error g =>
    refine fenced_row fun _ => ?_
    cases hget : s.workflows.get workflowId with
    | none => exact .refl
    | some wf =>
      cases hstep : wf.steps.get stepName with
      | none =>
        simp only [hstep]
        exact .refl
      | some step =>
        simp only [hstep]
        refine putRun_row hget fun _ => noted_set rfl rfl ?_ ⟨rfl, rfl, rfl, rfl⟩ ⟨rfl, rfl⟩
        intro old hold
        rw [hstep] at hold
        cases hold
        exact ⟨rfl, rfl, rfl, rfl, rfl⟩
  | appendPendingEntry a activityName payloadHash stepType wakeAt g =>
    exact fenced_row fun _ => .refl

end Promin.Durable

/-!
## Ended runs

A run that has completed, failed (cancelled included) or tripped keeps its
status, result, error, error tag and tripwire reason through every call but
`startFreshRun` and `resetSteps`, which reopen it, and `purgeCompleted`, which
removes it.
-/

namespace Promin.Durable

open InMemoryWorkflowStorage

/-- The calls that make an ended run runnable again. -/
def Reopens : StorageOp → Prop
  | .startFreshRun _ _ _ _ => True
  | .resetSteps _ _ => True
  | _ => False

def SameEnd (wf wf' : MutableWorkflow) : Prop := wf'.status = wf.status ∧ SameOutcome wf wf'

/-- The row after a call still shows the end of `wf`, or was purged. -/
def Kept (o : StorageOp) (wf : MutableWorkflow) (row : Option MutableWorkflow) : Prop :=
  (∃ wf', row = some wf' ∧ SameEnd wf wf') ∨
    (row = none ∧ ∃ window limit, o = .purgeCompleted window limit)

/-- A call that does not reopen runs leaves ended ones as they are. -/
def KeepsEnded (s : InMemoryWorkflowStorage) (o : StorageOp) : Prop :=
  ¬ Reopens o → ∀ w wf, s.workflows.get w = some wf → wf.status.isTerminal = true →
    Kept o wf ((storage.next s o).workflows.get w)

/-- An accepted `suspendWorkflow` on an ended run. -/
def SuspendsEnded (s : InMemoryWorkflowStorage) (o : StorageOp) : Prop :=
  ∃ w stepName u g wf, o = .suspendWorkflow w stepName u g ∧ FenceAccepts s w g ∧
    s.workflows.get w = some wf ∧ wf.status.isTerminal = true

theorem SameEnd.refl (wf : MutableWorkflow) : SameEnd wf wf := ⟨rfl, rfl, rfl, rfl, rfl⟩

variable {w : String} {wf : MutableWorkflow}

theorem SameEnd.trans {wf' wf'' : MutableWorkflow} (h : SameEnd wf wf')
    (h' : SameEnd wf' wf'') : SameEnd wf wf'' :=
  ⟨h'.1.trans h.1, h'.2.1.trans h.2.1, h'.2.2.trans h.2.2, h'.2.3.trans h.2.3,
    h'.2.4.trans h.2.4⟩

/-! ## One row step -/

variable {s : InMemoryWorkflowStorage}

private theorem RowStep.kept {o : StorageOp}
    {row : Option MutableWorkflow} (h : RowStep s o w (some wf) row)
    (hend : wf.status.isTerminal = true) (hreopen : ¬ Reopens o)
    (hsuspend : ∀ stepName u g, o = .suspendWorkflow w stepName u g → ¬ FenceAccepts s w g) :
    Kept o wf row := by
  cases h with
  | settled hname hsteps hstatus hout hrun =>
    refine .inl ⟨_, rfl, ?_, hout⟩
    rw [hstatus, if_neg]
    intro hpending
    rw [hpending] at hend
    exact nomatch hend
  | noted hstatus hsteps hout hrun => exact .inl ⟨_, rfl, hstatus, hout⟩
  | ended hopen hend' | compensating hopen =>
    rw [hend] at hopen
    exact nomatch hopen
  | suspended ho hfence => exact absurd hfence (hsuspend _ _ _ ho)
  | fresh ho | reset ho => exact absurd (ho ▸ trivial) hreopen
  | @purged _ window limit ho hend' => exact .inr ⟨rfl, window, limit, ho⟩

private theorem RowSteps.kept {o : StorageOp}
    {row : Option MutableWorkflow} (h : RowSteps s o w (some wf) row)
    (hend : wf.status.isTerminal = true) (hreopen : ¬ Reopens o)
    (hsuspend : ∀ stepName u g, o = .suspendWorkflow w stepName u g → ¬ FenceAccepts s w g) :
    Kept o wf row := by
  induction h with
  | refl => exact .inl ⟨wf, rfl, .refl wf⟩
  | tail _ hstep ih =>
    rcases ih with ⟨wf', rfl, hsame⟩ | ⟨rfl, window, limit, ho⟩
    · have hend' : wf'.status.isTerminal = true := by rw [hsame.1, hend]
      rcases RowStep.kept hstep hend' hreopen hsuspend with ⟨wf'', rfl, hsame'⟩ | hpurged
      · exact .inl ⟨wf'', rfl, hsame.trans hsame'⟩
      · exact .inr hpurged
    · cases hstep with
      | created ho' =>
        rw [ho] at ho'
        exact nomatch ho'

private theorem suspended_status {g : FenceGuard}
    (stepName : String) (u : StepUpdate) (hfence : FenceAccepts s w g)
    (hget : s.workflows.get w = some wf) :
    ((storage.next s (.suspendWorkflow w stepName u g)).workflows.get w).map (·.status) =
      some .suspended := by
  show ((s.suspendWorkflow w stepName u g).1.workflows.get w).map _ = _
  unfold suspendWorkflow fencedWrite fenced
  rw [show s.leases.checkFence s.now w g = .ok () from hfence]
  simp [hget, putRun]

theorem keepsEnded_iff (s : InMemoryWorkflowStorage) (o : StorageOp) :
    KeepsEnded s o ↔ ¬ SuspendsEnded s o := by
  constructor
  · rintro hkeeps ⟨w, stepName, u, g, wf, rfl, hfence, hget, hend⟩
    have hafter := suspended_status stepName u hfence hget
    rcases hkeeps id w wf hget hend with ⟨wf', hget', hsame⟩ | ⟨hnone, window, limit, ho⟩
    · rw [hget', Option.map_some, Option.some.injEq, hsame.1] at hafter
      rw [hafter] at hend
      exact nomatch hend
    · exact nomatch ho
  · intro hnot hreopen w wf hget hend
    have hsteps := step_row s o w
    rw [hget] at hsteps
    refine RowSteps.kept hsteps hend hreopen ?_
    intro stepName u g ho hfence
    exact hnot ⟨w, stepName, u, g, wf, ho, hfence, hget, hend⟩

/-- **Ended runs stay as they ended** over a run of the storage, through every call that
    does not reopen runs, if and only if no suspend goes through on an ended run. -/
theorem ended_runs_final_iff (config : StorageConfig) (ops : List StorageOp) :
    storage.Always KeepsEnded (.new config) ops ↔
      storage.Always (fun s o => ¬ SuspendsEnded s o) (.new config) ops :=
  Machine.always_congr keepsEnded_iff _ _

/-- An operator cancels a run, and the worker that still holds its lock suspends it: the
    cancelled run is back. -/
theorem suspend_reopens_counterexample :
    let ops : List StorageOp := [
      .createWorkflow { workflowId := "w", workflowName := "order", input := .null } none,
      .tryLock "w" 1000 none,
      .cancelWorkflow "w" false none,
      .suspendWorkflow "w" "pause" { status := .sleeping, wakeAt := some 5 } (some "1")]
    ((storage.run (.new { instanceId := "i" }) (ops.take 3)).workflows.get "w").map (·.status) =
      some .failed ∧
    ((storage.run (.new { instanceId := "i" }) ops).workflows.get "w").map (·.status) =
      some .suspended ∧
    ¬ storage.Always KeepsEnded (.new { instanceId := "i" }) ops := by
  refine ⟨by decide, by decide, ?_⟩
  rintro ⟨-, -, -, hkeeps, -⟩
  have hfence : FenceAccepts (storage.run (.new { instanceId := "i" }) [
      .createWorkflow { workflowId := "w", workflowName := "order", input := .null } none,
      .tryLock "w" 1000 none, .cancelWorkflow "w" false none]) "w" (some "1") := by
    unfold FenceAccepts
    decide
  exact (keepsEnded_iff _ _).mp hkeeps
    ⟨"w", "pause", _, some "1", _, rfl, hfence, rfl, by decide⟩

end Promin.Durable

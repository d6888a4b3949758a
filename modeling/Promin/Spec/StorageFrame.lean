import Promin.Durable.Storage

/-!
# What a storage call leaves alone

Most calls write rows of runs and what is noted about them (events, attempts):
`step_rowWrites` says once for all of these calls how they write a row
(`RowWrite`), and `step_rowsWritten` that they keep what a run was given when it
was created.
-/

namespace Promin.Durable

open InMemoryWorkflowStorage

/-! ## Fences -/

/-- The lock of `workflowId` lets the write through. -/
def FenceAccepts (s : InMemoryWorkflowStorage) (workflowId : String) (guard_ : FenceGuard) : Prop :=
  s.leases.checkFence s.now workflowId guard_ = .ok ()

variable (s : InMemoryWorkflowStorage) {α : Type} {workflowId : String}

theorem fenced_cases (workflowId : String)
    (guard_ : FenceGuard) (body : InMemoryWorkflowStorage × Except StorageError α) :
    (∃ e, s.leases.checkFence s.now workflowId guard_ = .error e ∧
      s.fenced workflowId guard_ body = (s, .error (.fence e))) ∨
    (FenceAccepts s workflowId guard_ ∧ s.fenced workflowId guard_ body = body) := by
  unfold fenced FenceAccepts
  cases h : s.leases.checkFence s.now workflowId guard_ with
  | error e => exact .inl ⟨e, rfl, rfl⟩
  | ok u => exact .inr ⟨rfl, rfl⟩

theorem fenced_state {P : InMemoryWorkflowStorage → Prop}
    {s : InMemoryWorkflowStorage} {guard_ : FenceGuard}
    {body : InMemoryWorkflowStorage × Except StorageError α} (hs : P s) (hbody : P body.1) :
    P (s.fenced workflowId guard_ body).1 := by
  rcases fenced_cases s workflowId guard_ body with ⟨e, -, hrej⟩ | ⟨-, hacc⟩
  · rw [hrej]
    exact hs
  · rw [hacc]
    exact hbody

/-! ## Purging -/

theorem purge_state {P : InMemoryWorkflowStorage → Prop} (window : PurgeWindow) (limit : Int)
    (hdelete : ∀ s id wf, P s → s.workflows.get id = some wf → s.purgeable window wf = true →
      P (s.deleteRun id wf))
    {s : InMemoryWorkflowStorage} (h : P s) : P (s.purgeCompleted window limit).1 := by
  have hloop : ∀ (l : List (String × MutableWorkflow)) (deleted : Nat)
      (s : InMemoryWorkflowStorage), P s → (l.map Prod.fst).Nodup →
      (∀ e ∈ l, s.workflows.get e.1 = some e.2) → P (purgeLoop window limit l deleted s).1 := by
    intro l
    induction l with
    | nil => exact fun deleted s hs _ _ => hs
    | cons e rest ih =>
      obtain ⟨id, wf⟩ := e
      intro deleted s hs hnd hrows
      simp only [List.map_cons, List.nodup_cons] at hnd
      have hget := hrows (id, wf) List.mem_cons_self
      have hrest : ∀ e ∈ rest, s.workflows.get e.1 = some e.2 :=
        fun e he => hrows e (List.mem_cons_of_mem _ he)
      simp only [purgeLoop]
      split
      · exact hs
      · split
        · rename_i hpurge
          apply ih (deleted + 1) _ (hdelete s id wf hs hget hpurge) hnd.2
          intro e he
          show (s.workflows.delete id).get e.1 = _
          have hne : id ≠ e.1 := by
            intro heq
            exact hnd.1 (List.mem_map.mpr ⟨e, he, heq.symm⟩)
          rw [JsMap.get_delete_ne _ hne, hrest e he]
        · exact ih deleted s hs hnd.2 hrest
  exact hloop s.workflows.entries 0 s h s.workflows.nodup
    fun e he => (JsMap.mem_entries_iff _ _ _).mp he

/-! ## Calls that write run rows -/

/-- What a run is given when it is created and keeps. -/
structure RunIdentity where
  workflowId : String
  workflowName : String
  parentWorkflowId : Option String
  ns : Option String
  idempotencyKey : Option String
  idempotencyExpiresAt : Option Int

def identity (wf : MutableWorkflow) : RunIdentity where
  workflowId := wf.workflowId
  workflowName := wf.workflowName
  parentWorkflowId := wf.parentWorkflowId
  ns := wf.ns
  idempotencyKey := wf.idempotencyKey
  idempotencyExpiresAt := wf.idempotencyExpiresAt

def SameRuns (rows rows' : JsMap String MutableWorkflow) : Prop :=
  ∀ x, (rows'.get x).map identity = (rows.get x).map identity

def RowsWritten (s s' : InMemoryWorkflowStorage) : Prop :=
  s' = { s with workflows := s'.workflows, events := s'.events, attempts := s'.attempts } ∧
    SameRuns s.workflows s'.workflows

theorem SameRuns.set {rows : JsMap String MutableWorkflow}
    {wf wf' : MutableWorkflow} (hget : rows.get workflowId = some wf)
    (hsame : identity wf' = identity wf) : SameRuns rows (rows.set workflowId wf') := by
  intro x
  rw [JsMap.get_set]
  split
  · rename_i hx
    rw [← hx, hget]
    simp [hsame]
  · rfl

/-- One write on the row of a run, as the calls make it. -/
inductive RowWrite : MutableWorkflow → MutableWorkflow → Prop where
  | completed (s : InMemoryWorkflowStorage) (wf : MutableWorkflow) (r : StepResultRecord) :
      RowWrite wf (s.putStep (s.markRunning wf) { s.settledStep (s.markRunning wf) r.stepName
        .completed r.metadata r.startedAt r.durationMs with result := some r.result })
  | failed (s : InMemoryWorkflowStorage) (wf : MutableWorkflow) (r : StepFailureRecord) :
      RowWrite wf (s.putStep (s.markRunning wf) { s.settledStep (s.markRunning wf) r.stepName
        .failed r.metadata r.startedAt r.durationMs with
        error := some r.error, errorTag := r.errorTag })
  | task (s : InMemoryWorkflowStorage) (wf : MutableWorkflow) (stepName : String)
      (taskIndex : Int) (outcome : TaskOutcome) :
      RowWrite wf (s.writeTaskRow wf stepName taskIndex outcome)
  | ended {wf wf' : MutableWorkflow} (hidentity : identity wf' = identity wf)
      (hrun : wf'.run = wf.run) (hsteps : wf'.steps = wf.steps) : RowWrite wf wf'
  | suspended (s : InMemoryWorkflowStorage) (wf : MutableWorkflow) (stepName : String)
      (u : StepUpdate) :
      RowWrite wf { s.putStep wf (s.suspendedStep wf stepName u) with status := .suspended }
  | metadata (wf : MutableWorkflow) (patch : Record) (at_ : Int) :
      RowWrite wf { wf with
        metadata := some (applyMetadataPatch wf.metadata patch), updatedAt := at_ }
  | compensating (wf : MutableWorkflow) (error : String) (errorTag : Option String) (at_ : Int) :
      RowWrite wf { wf with
        status := .compensating, error := some error, errorTag := errorTag, updatedAt := at_ }
  | compensated (wf : MutableWorkflow) {stepName : String} {step : StepState}
      (hstep : wf.steps.get stepName = some step) (status : StepCompensationStatus)
      (error : Option String) (at_ : Int) :
      RowWrite wf { wf with
        steps := wf.steps.set stepName { withoutCompensationLedger step with
          compensationStatus := some status, compensationError := error
          compensatedAt := some at_ }
        updatedAt := at_ }

/-- The same runs are stored, each row after some writes. -/
def RowsRewritten (rows rows' : JsMap String MutableWorkflow) : Prop :=
  ∀ x, Option.Rel (Relation.ReflTransGen RowWrite) (rows.get x) (rows'.get x)

def RowWrites (s s' : InMemoryWorkflowStorage) : Prop :=
  s' = { s with workflows := s'.workflows, events := s'.events, attempts := s'.attempts } ∧
    RowsRewritten s.workflows s'.workflows

namespace RowWrites

theorem refl (s : InMemoryWorkflowStorage) : RowWrites s s := by
  refine ⟨rfl, fun x => ?_⟩
  cases s.workflows.get x with
  | none => exact .none
  | some wf => exact .some .refl

theorem trans {s s' s'' : InMemoryWorkflowStorage} (h : RowWrites s s')
    (h' : RowWrites s' s'') : RowWrites s s'' := by
  obtain ⟨hrest, hruns⟩ := h
  obtain ⟨hrest', hruns'⟩ := h'
  constructor
  · rw [hrest', hrest]
  · intro x
    have hfirst := hruns x
    have hsecond := hruns' x
    revert hfirst hsecond
    generalize s.workflows.get x = row, s'.workflows.get x = row', s''.workflows.get x = row''
    intro hfirst hsecond
    cases hfirst with
    | none =>
      cases hsecond
      exact .none
    | some hwrites =>
      cases hsecond with
      | some hwrites' => exact .some (hwrites.trans hwrites')

theorem putRun {s t : InMemoryWorkflowStorage} {workflowId : String} {wf wf' : MutableWorkflow}
    (hget : s.workflows.get workflowId = some wf) (hrest : t = { s with
      workflows := t.workflows, events := t.events, attempts := t.attempts })
    (hrows : t.workflows = s.workflows.set workflowId wf') (hwrite : RowWrite wf wf') :
    RowWrites s t := by
  refine ⟨hrest, fun x => ?_⟩
  rw [hrows, JsMap.get_set]
  split
  · rename_i hx
    rw [← hx, hget]
    exact .some (.single hwrite)
  · exact (RowWrites.refl s).2 x

theorem fenced {α : Type} {s : InMemoryWorkflowStorage} {workflowId : String}
    {guard_ : FenceGuard} {body : InMemoryWorkflowStorage × Except StorageError α}
    (h : RowWrites s body.1) : RowWrites s (s.fenced workflowId guard_ body).1 :=
  fenced_state (.refl s) h

theorem foldl {β : Type} {f : InMemoryWorkflowStorage → β → InMemoryWorkflowStorage}
    (hf : ∀ s b, RowWrites s (f s b)) (l : List β) (s : InMemoryWorkflowStorage) :
    RowWrites s (l.foldl f s) := by
  induction l generalizing s with
  | nil => exact .refl s
  | cons b rest ih => exact (hf s b).trans (ih _)

end RowWrites

theorem markRunning_identity (wf : MutableWorkflow) :
    identity (s.markRunning wf) = identity wf := by
  unfold markRunning
  split <;> rfl

theorem RowWrite.identity_eq {wf wf' : MutableWorkflow} (h : RowWrite wf wf') :
    identity wf' = identity wf := by
  cases h with
  | completed s wf r | failed s wf r => exact markRunning_identity s wf
  | ended hidentity hrun hsteps => exact hidentity
  | task | suspended | metadata | compensating | compensated => rfl

theorem RowWrites.rowsWritten {s s' : InMemoryWorkflowStorage} (h : RowWrites s s') :
    RowsWritten s s' := by
  refine ⟨h.1, fun x => ?_⟩
  have hrows := h.2 x
  revert hrows
  generalize s.workflows.get x = row, s'.workflows.get x = row'
  intro hrows
  cases hrows with
  | none => rfl
  | some hwrites =>
    induction hwrites with
    | refl => rfl
    | tail _ hwrite ih =>
      rw [← ih]
      simp only [Option.map_some, hwrite.identity_eq]

theorem writeStepResult_rowWrites (r : StepResultRecord) :
    RowWrites s (s.writeStepResult r) := by
  unfold writeStepResult
  cases hget : s.workflows.get r.workflowId with
  | none => exact .refl s
  | some wf => exact .putRun hget rfl rfl (.completed s wf r)

theorem writeStepFailure_rowWrites (r : StepFailureRecord) :
    RowWrites s (s.writeStepFailure r) := by
  unfold writeStepFailure
  cases hget : s.workflows.get r.workflowId with
  | none => exact .refl s
  | some wf => exact .putRun hget rfl rfl (.failed s wf r)

theorem endRun_rowWrites (workflowId : String) (g : FenceGuard)
    {f : MutableWorkflow → MutableWorkflow} (event : MutableWorkflow → WorkflowRunEvent)
    (hf : ∀ wf, RowWrite wf { f wf with completedAt := some s.now, updatedAt := s.now }) :
    RowWrites s (s.endRun workflowId g f event).1 := by
  apply RowWrites.fenced
  cases hget : s.workflows.get workflowId with
  | none => exact .refl s
  | some wf =>
    simp only
    split
    · exact .refl s
    · exact .putRun hget rfl rfl (hf wf)

theorem cancelRun_rowWrites (cascade : Bool) (fuel : Nat) (s : InMemoryWorkflowStorage)
    (workflowId : String) : RowWrites s (cancelRun cascade fuel s workflowId) := by
  induction fuel generalizing s workflowId with
  | zero => exact .refl s
  | succ fuel ih =>
    unfold cancelRun
    cases hget : s.workflows.get workflowId with
    | none => exact .refl s
    | some wf =>
      simp only
      split
      · exact .refl s
      · have hself : RowWrites s ((s.putRun workflowId (s.cancelled wf)).emit workflowId
            (.workflowFailed cancelledError s.now) true) :=
          .putRun hget rfl rfl (.ended rfl rfl rfl)
        split
        · exact hself.trans (RowWrites.foldl ih _ _)
        · exact hself

def WritesRows : StorageOp → Prop
  | .saveStepResult _ _ => True
  | .batchSaveStepResults _ _ => True
  | .saveStepFailure _ _ => True
  | .saveTask _ _ _ _ _ => True
  | .completeWorkflow _ _ _ => True
  | .failWorkflow _ _ _ _ => True
  | .tripwireWorkflow _ _ _ => True
  | .cancelWorkflow _ _ _ => True
  | .suspendWorkflow _ _ _ _ => True
  | .setWorkflowMetadata _ _ _ => True
  | .notifyStepStarted _ _ => True
  | .saveStepAttempt _ _ => True
  | .checkpointStep _ _ => True
  | .beginCompensation _ _ _ _ => True
  | .saveStepCompensation _ _ _ _ _ => True
  | _ => False

variable {o : StorageOp}

theorem step_rowWrites (h : WritesRows o) :
    RowWrites s (storage.next s o) := by
  cases o with
  | saveStepResult r g =>
    show RowWrites s (s.saveStepResult r g).1
    exact .fenced (writeStepResult_rowWrites s r)
  | batchSaveStepResults records g =>
    show RowWrites s (s.batchSaveStepResults records g).1
    unfold batchSaveStepResults
    split
    · exact .refl s
    · exact .foldl writeStepResult_rowWrites records s
  | saveStepFailure r g =>
    show RowWrites s (s.saveStepFailure r g).1
    exact .fenced (writeStepFailure_rowWrites s r)
  | saveTask workflowId stepName taskIndex outcome g =>
    show RowWrites s (s.saveTask workflowId stepName taskIndex outcome g).1
    apply RowWrites.fenced
    cases hget : s.workflows.get workflowId with
    | none => exact .refl s
    | some wf => exact .putRun hget rfl rfl (.task s wf stepName taskIndex outcome)
  | completeWorkflow workflowId result g | failWorkflow workflowId error tag g
  | tripwireWorkflow workflowId reason g =>
    exact endRun_rowWrites s workflowId g _ fun _ => .ended rfl rfl rfl
  | cancelWorkflow workflowId cascade g =>
    show RowWrites s (s.cancelWorkflow workflowId cascade g).1
    exact .fenced (cancelRun_rowWrites cascade _ s workflowId)
  | suspendWorkflow workflowId stepName u g =>
    show RowWrites s (s.suspendWorkflow workflowId stepName u g).1
    apply RowWrites.fenced
    cases hget : s.workflows.get workflowId with
    | none => exact .refl s
    | some wf => exact .putRun hget rfl rfl (.suspended s wf stepName u)
  | setWorkflowMetadata workflowId patch g =>
    show RowWrites s (s.setWorkflowMetadata workflowId patch g).1
    apply RowWrites.fenced
    cases hget : s.workflows.get workflowId with
    | none => exact .refl s
    | some wf => exact .putRun hget rfl rfl (.metadata wf patch s.now)
  | notifyStepStarted workflowId stepName => exact ⟨rfl, (RowWrites.refl s).2⟩
  | saveStepAttempt record g =>
    show RowWrites s (s.saveStepAttempt record g).1
    exact .fenced ⟨rfl, (RowWrites.refl s).2⟩
  | checkpointStep c g =>
    show RowWrites s (s.checkpointStep c g).1
    apply RowWrites.fenced
    cases hget : s.workflows.get c.workflowId with
    | none => exact .refl s
    | some wf =>
      have hattempt : ∀ (t : InMemoryWorkflowStorage) (r : StepAttemptRecord),
          RowWrites t (t.appendAttempt r) := fun t _ => ⟨rfl, (RowWrites.refl t).2⟩
      have hattempts := RowWrites.foldl hattempt c.attempts s
      simp only
      cases c.outcome with
      | completed result => exact hattempts.trans (writeStepResult_rowWrites _ _)
      | failed error errorTag => exact hattempts.trans (writeStepFailure_rowWrites _ _)
  | beginCompensation workflowId error errorTag g =>
    show RowWrites s (s.beginCompensation workflowId error errorTag g).1
    apply RowWrites.fenced
    cases hget : s.workflows.get workflowId with
    | none => exact .refl s
    | some wf =>
      simp only
      split
      · exact .refl s
      · split
        · exact .refl s
        · exact .putRun hget rfl rfl (.compensating wf error errorTag s.now)
  | saveStepCompensation workflowId stepName status error g =>
    show RowWrites s (s.saveStepCompensation workflowId stepName status error g).1
    apply RowWrites.fenced
    cases hget : s.workflows.get workflowId with
    | none => exact .refl s
    | some wf =>
      simp only
      cases hstep : wf.steps.get stepName with
      | none => exact .refl s
      | some step => exact .putRun hget rfl rfl (.compensated wf hstep status error s.now)
  | _ => exact h.elim

theorem step_rowsWritten (h : WritesRows o) :
    RowsWritten s (storage.next s o) :=
  (step_rowWrites s h).rowsWritten

/-! ## Calls that leave the runs and their indexes alone -/

def SameIndexes (s s' : InMemoryWorkflowStorage) : Prop :=
  s'.children = s.children ∧ s'.idempotencyIndex = s.idempotencyIndex ∧ s'.ns = s.ns ∧
    s.now ≤ s'.now ∧ SameRuns s.workflows s'.workflows

namespace SameIndexes

theorem refl (s : InMemoryWorkflowStorage) : SameIndexes s s :=
  ⟨rfl, rfl, rfl, Int.le_refl _, fun _ => rfl⟩

theorem of_rowsWritten {s s' : InMemoryWorkflowStorage} (h : RowsWritten s s') :
    SameIndexes s s' := by
  have hruns := h.2
  rw [h.1]
  exact ⟨rfl, rfl, rfl, Int.le_refl _, hruns⟩

theorem putRun {s t : InMemoryWorkflowStorage} {workflowId : String} {wf wf' : MutableWorkflow}
    (hget : s.workflows.get workflowId = some wf) (hchildren : t.children = s.children)
    (hindex : t.idempotencyIndex = s.idempotencyIndex) (hns : t.ns = s.ns) (hnow : t.now = s.now)
    (hrows : t.workflows = s.workflows.set workflowId wf') (hsame : identity wf' = identity wf) :
    SameIndexes s t := by
  refine ⟨hchildren, hindex, hns, Int.le_of_eq hnow.symm, ?_⟩
  rw [hrows]
  exact .set hget hsame

theorem of_eq {s t : InMemoryWorkflowStorage} (hchildren : t.children = s.children)
    (hindex : t.idempotencyIndex = s.idempotencyIndex) (hns : t.ns = s.ns) (hnow : t.now = s.now)
    (hrows : t.workflows = s.workflows) : SameIndexes s t := by
  refine ⟨hchildren, hindex, hns, Int.le_of_eq hnow.symm, ?_⟩
  rw [hrows]
  exact fun _ => rfl

theorem fenced {α : Type} {s : InMemoryWorkflowStorage} {workflowId : String}
    {guard_ : FenceGuard} {body : InMemoryWorkflowStorage × Except StorageError α}
    (h : SameIndexes s body.1) : SameIndexes s (s.fenced workflowId guard_ body).1 :=
  fenced_state (.refl s) h

end SameIndexes

def TreeCall : StorageOp → Prop
  | .createWorkflow _ _ => True
  | .purgeCompleted _ _ => True
  | _ => False

theorem step_sameIndexes (h : ¬ TreeCall o) :
    SameIndexes s (storage.next s o) := by
  by_cases hrows : WritesRows o
  · exact .of_rowsWritten (step_rowsWritten s hrows)
  cases o with
  | createWorkflow p g | purgeCompleted window limit => exact absurd trivial h
  | advance ms =>
    have hle : s.now ≤ s.now + ms := by omega
    exact ⟨rfl, rfl, rfl, hle, fun _ => rfl⟩
  | startFreshRun workflowId run input g =>
    show SameIndexes s (s.startFreshRun workflowId run input g).1
    apply SameIndexes.fenced
    cases hget : s.workflows.get workflowId with
    | none => exact .refl s
    | some wf =>
      simp only
      split
      · exact .refl s
      · exact .putRun hget rfl rfl rfl rfl rfl rfl
  | resetSteps workflowId stepNames =>
    show SameIndexes s (s.resetSteps workflowId stepNames).1
    unfold resetSteps
    cases hget : s.workflows.get workflowId with
    | none => exact .refl s
    | some wf =>
      simp only
      split
      · exact .refl s
      · refine .putRun hget rfl rfl rfl rfl rfl ?_
        split <;> rfl
  | completeSignalToken tokenId value now =>
    show SameIndexes s (s.completeSignalToken tokenId value now).1
    unfold completeSignalToken
    simp only
    split
    · exact .of_eq rfl rfl rfl rfl rfl
    · split <;> exact .of_eq rfl rfl rfl rfl rfl
  | appendStreamChunk p g =>
    show SameIndexes s (s.appendStreamChunk p g).1
    exact .fenced (.of_eq rfl rfl rfl rfl rfl)
  | appendEntry a name hash exit g =>
    show SameIndexes s (s.appendEntry a name hash exit g).1
    exact .fenced (.of_eq rfl rfl rfl rfl rfl)
  | appendPendingEntry a name hash type wakeAt g =>
    show SameIndexes s (s.appendPendingEntry a name hash type wakeAt g).1
    exact .fenced (.of_eq rfl rfl rfl rfl rfl)
  | completePendingEntry a exit g =>
    show SameIndexes s (s.completePendingEntry a exit g).1
    exact .fenced (.of_eq rfl rfl rfl rfl rfl)
  | discardJournalEntries workflowId stepName slots g =>
    show SameIndexes s (s.discardJournalEntries workflowId stepName slots g).1
    exact .fenced (.of_eq rfl rfl rfl rfl rfl)
  | _ => first | exact absurd trivial hrows | exact .of_eq rfl rfl rfl rfl rfl

/-! ## Calls that leave the locks and the journal alone -/

/-- The locks, the clock, the namespace and the journal did not change. -/
def RowsOnly (s s' : InMemoryWorkflowStorage) : Prop :=
  s'.leases = s.leases ∧ s'.now = s.now ∧ s'.ns = s.ns ∧ s'.journal = s.journal

def RowCall : StorageOp → Prop
  | .advance _ => False
  | .startFreshRun _ _ _ _ => False
  | .resetSteps _ _ => False
  | .tryLock _ _ _ => False
  | .releaseLock _ _ => False
  | .heartbeat _ _ _ => False
  | .purgeCompleted _ _ => False
  | .loadJournal _ _ => False
  | .appendEntry _ _ _ _ _ => False
  | .appendPendingEntry _ _ _ _ _ _ => False
  | .completePendingEntry _ _ _ => False
  | .discardJournalEntries _ _ _ _ => False
  | .findDueSleeps _ _ => False
  | _ => True

private theorem RowsOnly.refl : RowsOnly s s := ⟨rfl, rfl, rfl, rfl⟩

theorem RowsWritten.rowsOnly {s s' : InMemoryWorkflowStorage} (h : RowsWritten s s') :
    RowsOnly s s' := by
  rw [h.1]
  exact ⟨rfl, rfl, rfl, rfl⟩

private theorem fenced_rowsOnly {s : InMemoryWorkflowStorage}
    {guard_ : FenceGuard} {body : InMemoryWorkflowStorage × Except StorageError α}
    (h : RowsOnly s body.1) : RowsOnly s (s.fenced workflowId guard_ body).1 :=
  fenced_state (.refl s) h

/-- **A row call leaves locks, clock, namespace and journal alone.** -/
theorem rowCall_rowsOnly (h : RowCall o) :
    RowsOnly s (storage.next s o) := by
  by_cases hrows : WritesRows o
  · exact (step_rowsWritten s hrows).rowsOnly
  cases o with
  | createWorkflow p g =>
    have hrun : RowsOnly s (s.createRun p).1 := by
      unfold createRun
      simp only
      split <;> exact ⟨rfl, rfl, rfl, rfl⟩
    show RowsOnly s (s.createWorkflow p g).1
    unfold createWorkflow
    simp only
    split
    · split
      · exact .refl s
      · exact fenced_rowsOnly hrun
    · exact hrun
  | deliverSignal workflowId signalName payload | createSignalToken p => exact ⟨rfl, rfl, rfl, rfl⟩
  | completeSignalToken tokenId value now =>
    show RowsOnly s (s.completeSignalToken tokenId value now).1
    unfold completeSignalToken
    simp only
    split
    · exact ⟨rfl, rfl, rfl, rfl⟩
    · split <;> exact ⟨rfl, rfl, rfl, rfl⟩
  | appendStreamChunk p g => exact fenced_rowsOnly ⟨rfl, rfl, rfl, rfl⟩
  | _ => first | exact h.elim | exact absurd trivial hrows

theorem rowCall_journal {s : InMemoryWorkflowStorage} (h : RowCall o) :
    (storage.next s o).journal = s.journal :=
  (rowCall_rowsOnly s h).2.2.2

end Promin.Durable

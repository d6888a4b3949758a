import Promin.Shared.JsonValue
import Promin.Spec.DagDrive
import Promin.Durable.Orchestrate
import Promin.Distributed.ResultWaiters

/-!
# Answers for a completed run

The call that drives a run to completion answers the last step's decoded result
and stores that, decoded, as the result of the run, beside the step row with the
encoded form.
-/

namespace Promin.Durable

open InMemoryWorkflowStorage Option List Prog Triple Distributed

variable {V : Type}

/-! ## Programs that throw or answer anything -/

theorem any_triple {μ σ ε α : Type} (P : σ → Prop) (m : Prog μ σ ε α) :
    Triple (fun _ => True) P m (fun _ _ => True) fun _ _ => True := by
  intro ms s _ _
  refine ⟨trivial, ?_⟩
  split <;> trivial

theorem Driving.stable {workflowId : String} :
    Stable (interfere workflowId) (Driving (V := V)) := by
  apply stable_of_rows
  intro w w' _ hevents h
  unfold Driving
  rw [hevents]
  exact h

namespace WorkflowOrchestrationContext

variable {ctx : WorkflowOrchestrationContext V} {workflowId : String}

/-! ## What a call knows of the run -/

/-- What the run's events say about the last step is what the state says, and the state is
    that of the stored run, if there is one. -/
structure Seen (ctx : WorkflowOrchestrationContext V) (workflowId : String)
    (state : Option WorkflowState) (w : DriverWorld (DriveEvent V)) : Prop where
  held : lastHeld ctx.json ctx.steps.lastStep.name w.events =
    heldRow ctx.json ctx.steps.lastStep.name ((state.map (·.steps)).getD JsMap.empty)
  driving : Driving w
  row : ∀ wf, w.storage.workflows.get workflowId = some wf → state = some wf.toWorkflowState

def IsOpen (state : Option WorkflowState) : Prop :=
  ∀ stored, state = some stored → stored.status.isTerminal = false

/-- The stored run, if there is one, has not ended. -/
structure OpenRow (workflowId : String) (w : DriverWorld (DriveEvent V)) : Prop where
  driving : Driving w
  row : ∀ wf, w.storage.workflows.get workflowId = some wf → wf.status.isTerminal = false

/-- The run was completed with `v`: what the call holds of the last step decodes to it, and a
    stored run that is completed has it as its result, beside the row. -/
structure CompletedWith (ctx : WorkflowOrchestrationContext V) (workflowId : String) (v : V)
    (w : DriverWorld (DriveEvent V)) : Prop where
  done : .completed workflowId ∈ w.events
  own : ∀ id, .completed id ∈ w.events → id = workflowId
  held : ∃ h, lastHeld ctx.json ctx.steps.lastStep.name w.events = some h ∧
    ctx.steps.lastStep.codec.decode h.value = .ok v ∧
    ∀ wf, w.storage.workflows.get workflowId = some wf → wf.status = .completed →
      wf.result = some (ctx.json.stored v) ∧ Keeps ctx.steps.lastStep.name wf (some h)

/-- The entry gate or the idempotency cache answers `v` for the run. -/
def StoredAnswer (ctx : WorkflowOrchestrationContext V) (state : WorkflowState) (v : V) : Prop :=
  ctx.completedRunResult state = .ok v ∨
    ∃ now, ctx.cachedIdempotentOutcome state now = .ok (some v)

/-- No run was completed, and the answer is one for the stored run. -/
structure FromStore (ctx : WorkflowOrchestrationContext V) (workflowId : String) (v : V)
    (w : DriverWorld (DriveEvent V)) : Prop where
  driving : Driving w
  answer : ∀ wf, w.storage.workflows.get workflowId = some wf →
    ctx.StoredAnswer wf.toWorkflowState v

def Answered (ctx : WorkflowOrchestrationContext V) (workflowId : String) (v : V)
    (w : DriverWorld (DriveEvent V)) : Prop :=
  FromStore ctx workflowId v w ∨ CompletedWith ctx workflowId v w

theorem Seen.stable {state : Option WorkflowState} :
    Stable (interfere workflowId) (Seen ctx workflowId state) := by
  apply stable_of_rows
  intro w w' hrows hevents h
  refine ⟨?_, ?_, ?_⟩
  · rw [hevents]
    exact h.held
  · unfold Driving
    rw [hevents]
    exact h.driving
  · rw [hrows]
    exact h.row

theorem OpenRow.stable :
    Stable (interfere workflowId) (OpenRow (V := V) workflowId) := by
  apply stable_of_rows
  intro w w' hrows hevents h
  refine ⟨?_, ?_⟩
  · unfold Driving
    rw [hevents]
    exact h.driving
  · rw [hrows]
    exact h.row

variable {v : V} {α : Type} {s : InMemoryWorkflowStorage} {P : DriverWorld (DriveEvent V) → Prop}

theorem CompletedWith.stable :
    Stable (interfere workflowId) (CompletedWith ctx workflowId v) := by
  apply stable_of_rows
  intro w w' hrows hevents h
  refine ⟨?_, ?_, ?_⟩
  · rw [hevents]
    exact h.done
  · rw [hevents]
    exact h.own
  · rw [hevents, hrows]
    exact h.held

theorem Answered.congr {w w' : DriverWorld (DriveEvent V)}
    (h : Answered ctx workflowId v w) (hrows : w'.storage.workflows = w.storage.workflows)
    (hevents : w'.events = w.events) : Answered ctx workflowId v w' := by
  cases h with
  | inl hstore =>
    refine .inl ⟨?_, ?_⟩
    · unfold Driving
      rw [hevents]
      exact hstore.driving
    · rw [hrows]
      exact hstore.answer
  | inr hcompleted =>
    refine .inr ⟨?_, ?_, ?_⟩
    · rw [hevents]
      exact hcompleted.done
    · rw [hevents]
      exact hcompleted.own
    · rw [hevents, hrows]
      exact hcompleted.held

variable {w : DriverWorld (DriveEvent V)}

theorem Seen.fromStore {state : WorkflowState}
    (h : Seen ctx workflowId (some state) w) (hanswer : ctx.StoredAnswer state v) :
    FromStore ctx workflowId v w := by
  refine ⟨h.driving, ?_⟩
  intro wf hwf
  have hstate := h.row wf hwf
  cases hstate
  exact hanswer

theorem Seen.during {state : Option WorkflowState}
    (h : Seen ctx workflowId state w) (hopen : IsOpen state) :
    During ctx.json workflowId ctx.steps.lastStep.name
      (heldRow ctx.json ctx.steps.lastStep.name ((state.map (·.steps)).getD JsMap.empty)) w := by
  refine ⟨h.held, h.driving, ?_⟩
  intro wf hwf
  have hstate := h.row wf hwf
  subst hstate
  exact ⟨hopen _ rfl, keeps_heldRow ctx.json _ wf⟩

/-! ## Loading -/

theorem seen_loaded (h : Driving w) :
    let state := (s.workflows.get workflowId).map (·.toWorkflowState)
    Seen ctx workflowId state { storage := s, events := w.events ++
      [.loaded ((state.map (·.steps)).getD JsMap.empty)] } := by
  intro state
  refine ⟨?_, ?_, ?_⟩
  · rw [lastHeld_concat]
    rfl
  · apply h.concat
    exact fun _ heq => nomatch heq
  · intro wf hwf
    change s.workflows.get workflowId = some wf at hwf
    simp only [state, hwf, map_some]

theorem loadWorkflow_triple {E : Thrown → DriverWorld (DriveEvent V) → Prop} :
    Triple (fun _ => True) Driving (loadWorkflow workflowId)
      (Seen ctx workflowId) E := by
  unfold loadWorkflow
  apply Prog.Triple.act (fun _ _ _ => trivial) Driving.stable
  intro w _ h
  exact ⟨trivial, seen_loaded h⟩

theorem loadOpen_triple {E : Thrown → DriverWorld (DriveEvent V) → Prop} :
    Triple (fun _ => True) (OpenRow workflowId) (loadWorkflow workflowId)
      (fun state w => Seen ctx workflowId state w ∧ IsOpen state) E := by
  unfold loadWorkflow
  apply Prog.Triple.act (fun _ _ _ => trivial) OpenRow.stable
  intro w _ h
  refine ⟨trivial, seen_loaded h.driving, ?_⟩
  intro stored hstored
  obtain ⟨wf, hwf, rfl⟩ := map_eq_some_iff.mp hstored
  exact h.row wf hwf

/-! ## Completing -/

theorem terminalWrite_triple (workflowId operation : String) {write : Drive (DriveEvent V) α}
    {Q : α → DriverWorld (DriveEvent V) → Prop}
    (h : Triple (fun _ => True) P write Q fun _ => P) :
    Triple (fun _ => True) P (terminalWrite workflowId operation write) Q
      fun _ _ => True := by
  unfold terminalWrite
  apply tryCatch (R := fun _ => P)
  · exact Triple.retry 3 0 (fun _ _ _ => h) (fun _ _ _ _ _ h => h)
      (fun _ _ _ _ _ h => h) (fun _ _ h => h)
  · intro error
    split
    · exact throw fun _ _ _ => trivial
    · exact throw fun _ _ _ => trivial

theorem assertNotCancelled_triple (hp : Stable (interfere workflowId) P) :
    Triple (fun _ => True) P (assertNotCancelled workflowId) (fun _ => P)
      fun _ _ => True :=
  assertRunActive_triple hp none

theorem completeWorkflow_fencedCall (result : JsValue) (guard_ : FenceGuard) :
    FencedCall (fun s => s.completeWorkflow workflowId result guard_) fun s s' =>
      ∀ wf', s'.workflows.get workflowId = some wf' →
        ∃ wf, s.workflows.get workflowId = some wf ∧
          (wf.status.isTerminal = false → wf'.steps = wf.steps ∧ wf'.result = some result) := by
  unfold completeWorkflow endRun
  apply fenced_fencedCall
  intro s
  refine ⟨_, (), rfl, ?_⟩
  intro wf' hget
  cases hwf : s.workflows.get workflowId with
  | none =>
    simp only [hwf] at hget
    cases hget
  | some wf =>
    refine ⟨wf, rfl, ?_⟩
    intro hopen
    simp only [hwf, hopen, Bool.false_eq_true, if_false, emit, putRun,
      JsMap.get_set_self] at hget
    cases hget
    exact ⟨rfl, rfl⟩

theorem completed_of_ends {guard_ : FenceGuard}
    (hw : DagEnds (ctx.dagContext workflowId guard_) (.success v) w)
    (hwritten : ∀ wf', s.workflows.get workflowId = some wf' →
      ∃ wf, w.storage.workflows.get workflowId = some wf ∧
        (wf.status.isTerminal = false →
          wf'.steps = wf.steps ∧ wf'.result = some (ctx.json.stored v))) :
    CompletedWith ctx workflowId v
      { storage := s, events := w.events ++ [.completed workflowId] } := by
  obtain ⟨held, hduring, hsuccess⟩ := hw
  obtain ⟨h, rfl, hdecode⟩ := hsuccess v rfl
  refine ⟨mem_append_right _ mem_cons_self, ?_, h, ?_, hdecode, ?_⟩
  · intro id hmem
    cases mem_append.mp hmem with
    | inl hold => exact absurd hold (hduring.driving id)
    | inr hnew =>
      cases mem_singleton.mp hnew
      rfl
  · have hholds : lastHeld ctx.json ctx.steps.lastStep.name w.events = some h := hduring.holds
    rw [lastHeld_concat, hholds]
    rfl
  · intro wf' hwf' _
    obtain ⟨wf, hwf, hended⟩ := hwritten wf' hwf'
    obtain ⟨hopen, hkeeps⟩ := hduring.row wf hwf
    obtain ⟨hrows, hresult⟩ := hended hopen
    refine ⟨hresult, ?_⟩
    intro got hgot
    rw [hrows]
    exact hkeeps got hgot

def PassEnds (ctx : WorkflowOrchestrationContext V) (workflowId : String) :
    Except Thrown (CycleEnd V) → DriverWorld (DriveEvent V) → Prop
  | .ok (.returned v), w => CompletedWith ctx workflowId v w
  | .ok (.continued _ _), w => Driving w
  | .error _, w => OpenRow workflowId w

theorem driveOnce_triple (guard_ : FenceGuard) (input : V) (deadlineMs : Option Int)
    (state : Option WorkflowState) :
    Triple (fun _ => True)
      (fun w => Seen ctx workflowId state w ∧ IsOpen state)
      (ctx.driveOnce workflowId guard_ input deadlineMs state) (PassEnds ctx workflowId)
      fun _ _ => True := by
  unfold driveOnce
  apply bind (Q := fun result w =>
    DagEnds (ctx.dagContext workflowId guard_) result w ∧ result ≠ .unfinished)
  · apply (executeWorkflowDag_triple input deadlineMs state).conseq
    · exact fun w _ h => h.1.during h.2
    · exact fun _ _ _ h => h
    · exact fun _ _ _ h => h
  · intro result
    cases result with
    | suspended error | unfinished => exact throw fun _ _ _ => trivial
    | continueAsNew nextInput =>
      apply Triple.pure
      rintro w - ⟨⟨held, hduring, -⟩, -⟩
      exact hduring.driving
    | failed error =>
      simp only
      split
      · exact throw fun _ _ _ => trivial
      · apply Triple.pure
        rintro w - ⟨⟨held, hduring, -⟩, -⟩
        exact ⟨hduring.driving, fun wf hwf => (hduring.row wf hwf).1⟩
    | tripwire stepName reason =>
      apply bind (any_triple _ _)
      intro _
      apply bind (any_triple _ _)
      exact fun _ => throw fun _ _ _ => trivial
    | success v =>
      apply bind (Q := fun _ => CompletedWith ctx workflowId v)
      · have hwrite := terminalWrite_triple workflowId "completeWorkflow" <|
          (fencedCall_triple (completeWorkflow_fencedCall (ctx.json.stored v) guard_)
            (DagEnds.stable (x := ctx.dagContext workflowId guard_))
            fun _ _ hw hwritten => completed_of_ends hw hwritten).conseq
              (fun _ _ h => h) (fun _ _ _ h => h) fun _ _ _ h => h.1
        apply hwrite.conseq
        · exact fun _ _ h => h.1
        · exact fun _ _ _ h => h
        · exact fun _ _ _ h => h
      · intro _
        apply bind (Q := fun _ => CompletedWith ctx workflowId v)
        · exact assertNotCancelled_triple CompletedWith.stable
        · exact fun _ => pure fun _ _ h => h

/-! ## Retrying -/

theorem rollBackAndFail_triple
    {Q : α → DriverWorld (DriveEvent V) → Prop} (guard_ : FenceGuard) (error : Thrown)
    (errorMsg : String) (failedTag : Option String) (resumed : Bool) :
    Triple (fun _ => True) P
      (rollBackAndFail workflowId guard_ error errorMsg failedTag resumed) Q
      fun _ _ => True := by
  unfold rollBackAndFail
  apply bind (any_triple _ _)
  intro entered
  apply bind (any_triple _ _)
  exact fun _ => throw fun _ _ _ => trivial

def CycleEnds (ctx : WorkflowOrchestrationContext V) (workflowId : String) :
    CycleEnd V → DriverWorld (DriveEvent V) → Prop
  | .returned v, w => Answered ctx workflowId v w
  | .continued _ _, w => Driving w

theorem driveAttempts_triple (guard_ : FenceGuard) (input : V) (deadlineMs : Option Int)
    (left workflowAttempt : Nat) (firstFailureMs : Option Int) (state : Option WorkflowState) :
    Triple (fun _ => True)
      (fun w => Seen ctx workflowId state w ∧ IsOpen state)
      (ctx.driveAttempts workflowId guard_ input deadlineMs left workflowAttempt
        firstFailureMs state)
      (CycleEnds ctx workflowId) fun _ _ => True := by
  induction left generalizing workflowAttempt firstFailureMs state with
  | zero =>
    unfold driveAttempts
    apply bind (driveOnce_triple guard_ input deadlineMs state)
    intro ended
    cases ended with
    | ok ended =>
      apply Triple.pure
      intro w _ h
      cases ended with
      | returned v => exact .inr h
      | continued nextInput run => exact h
    | error error =>
      apply bind (any_triple _ _)
      intro _
      apply bind (any_triple _ _)
      exact fun now => rollBackAndFail_triple _ _ _ _ _
  | succ left ih =>
    unfold driveAttempts
    apply bind (driveOnce_triple guard_ input deadlineMs state)
    intro ended
    cases ended with
    | ok ended =>
      apply Triple.pure
      intro w _ h
      cases ended with
      | returned v => exact .inr h
      | continued nextInput run => exact h
    | error error =>
      -- The run failed but has not ended: it is loaded again, and driven on.
      apply bind (Q := fun _ => OpenRow workflowId)
      · exact assertNotCancelled_triple OpenRow.stable
      · intro _
        apply bind (Q := fun _ => OpenRow workflowId)
        · exact clockNow_triple OpenRow.stable
        · intro now
          simp only
          split
          · apply bind (Q := fun _ => OpenRow workflowId)
            · exact assertRunActive_triple OpenRow.stable none
            · intro _
              apply bind loadOpen_triple
              exact fun state => ih _ _ state
          · exact rollBackAndFail_triple _ _ _ _ _

/-! ## One cycle -/

theorem startFreshRun_triple {state : WorkflowState} (guard_ : FenceGuard) :
    Triple (fun _ => True) (Seen ctx workflowId (some state))
      (storageCall workflowId [] fun s =>
        s.startFreshRun workflowId (some state.run) none guard_)
      (fun _ => OpenRow workflowId) fun _ _ => True := by
  apply storageCall_triple (fun _ _ _ => trivial) Seen.stable
  · intro w s run _ h hcall
    rw [append_nil]
    refine ⟨trivial, h.driving, ?_⟩
    intro wf' hwf'
    unfold startFreshRun at hcall
    rcases fenced_cases w.storage workflowId guard_ _ with ⟨e, -, hrejected⟩ | ⟨-, hpassed⟩
    · have hbad := hrejected.symm.trans hcall
      cases hbad
    · have hbody := hpassed.symm.trans hcall
      cases hwf : w.storage.workflows.get workflowId with
      | none =>
        simp only [hwf] at hbody
        cases hbody
      | some wf =>
        -- The run seen is the one stored, so its number matches.
        have hrun : state.run = wf.run := by
          have hstate := h.row wf hwf
          cases hstate
          rfl
        simp only [hwf, hrun, isSome_some, bne_self_eq_false, Bool.and_false,
          Bool.false_eq_true, if_false] at hbody
        cases hbody
        change (w.storage.workflows.set workflowId _).get workflowId = some wf' at hwf'
        rw [JsMap.get_set_self] at hwf'
        cases hwf'
        rfl
  · intro w s e _ _ _
    exact ⟨trivial, trivial⟩

/-- What a cycle knows after a look at the run. -/
def Entered (ctx : WorkflowOrchestrationContext V) (workflowId : String) :
    Entry V → DriverWorld (DriveEvent V) → Prop
  | .answered v, w => FromStore ctx workflowId v w
  | .proceeds state, w => Seen ctx workflowId state w

variable (p : RunParams V)

theorem checkIdempotency_triple (guard_ : FenceGuard) (state : Option WorkflowState) :
    Triple (fun _ => True) (Seen ctx p.workflowId state)
      (ctx.checkIdempotency p guard_ state) (Entered ctx p.workflowId) fun _ _ => True := by
  unfold checkIdempotency
  split
  · rename_i config stored hconfig
    split
    · exact pure fun _ _ h => h
    · apply bind (Q := fun _ => Seen ctx p.workflowId (some stored))
      · exact clockNow_triple Seen.stable
      · intro now
        split
        · exact throw fun _ _ _ => trivial
        · rename_i result hcached
          exact pure fun _ _ h => h.fromStore (.inr ⟨now, hcached⟩)
        · split
          · apply bind (startFreshRun_triple guard_)
            intro run
            apply bind loadOpen_triple
            exact fun state => pure fun _ _ h => h.1
          · exact pure fun _ _ h => h
  · exact pure fun _ _ h => h

theorem createWorkflow_existing {s' : InMemoryWorkflowStorage} {c : CreateWorkflowParams}
    {existing : WorkflowState} (h : s.createWorkflow c none = (s', .ok (some existing))) :
    s' = s := by
  have hcreate : ((s.createRun c).1, Except.ok (s.createRun c).2) = (s', .ok (some existing)) := h
  injection hcreate with hstate hanswer
  injection hanswer with hanswer
  unfold createRun at hstate hanswer
  simp only at hstate hanswer
  split at hanswer
  · rename_i claimed hclaimed
    rw [hclaimed] at hstate
    exact hstate.symm
  · cases hanswer

theorem createWorkflow_triple :
    Triple (fun _ => True) (Seen ctx p.workflowId none) (ctx.createWorkflow p)
      (fun existing w => match existing with
        | some existing => Seen ctx p.workflowId (some existing) w
        | none => Driving w) fun _ _ => True := by
  unfold createWorkflow
  apply Prog.Triple.act (fun _ _ _ => trivial) Seen.stable
  intro w _ h
  have habsent : ∀ wf, w.storage.workflows.get p.workflowId ≠ some wf :=
    fun wf hwf => nomatch h.row wf hwf
  simp only
  generalize hcreate : w.storage.createWorkflow _ none = created
  obtain ⟨s, answer⟩ := created
  cases answer with
  | error e => exact ⟨trivial, trivial⟩
  | ok existing =>
    cases existing with
    | none => exact ⟨trivial, h.driving⟩
    | some existing =>
      -- The claimed row is answered, and nothing is written.
      have hsame := createWorkflow_existing hcreate
      subst hsame
      refine ⟨trivial, ?_, ?_, ?_⟩
      · rw [lastHeld_concat]
        rfl
      · apply h.driving.concat
        exact fun _ heq => nomatch heq
      · exact fun wf hwf => absurd hwf (habsent wf)

theorem createOrCheck_triple (state : Option WorkflowState) :
    Triple (fun _ => True) (Seen ctx p.workflowId state) (ctx.createOrCheck p state)
      (Seen ctx p.workflowId) fun _ _ => True := by
  unfold createOrCheck
  cases state with
  | none =>
    simp only
    split
    · exact throw fun _ _ _ => trivial
    · apply bind (createWorkflow_triple p)
      intro existing
      cases existing with
      | some existing => exact pure fun _ _ h => h
      | none => exact loadWorkflow_triple
  | some stored =>
    simp only
    split
    · exact throw fun _ _ _ => trivial
    · exact pure fun _ _ h => h

theorem entryGate_triple (guard_ : FenceGuard) (state : Option WorkflowState) :
    Triple (fun _ => True) (Seen ctx p.workflowId state) (ctx.entryGate p guard_ state)
      (fun entry w => match entry with
        | .answered v => FromStore ctx p.workflowId v w
        | .proceeds state => Seen ctx p.workflowId state w ∧ IsOpen state)
      fun _ _ => True := by
  unfold entryGate
  cases state with
  | none => exact pure fun _ _ h => ⟨h, fun _ heq => nomatch heq⟩
  | some stored =>
    simp only
    split
    · rename_i hopen
      apply Triple.pure
      intro w _ h
      refine ⟨h, ?_⟩
      intro stored' heq
      cases heq
      exact hopen
    · split
      · split
        · exact throw fun _ _ _ => trivial
        · split
          · exact throw fun _ _ _ => trivial
          · rename_i result hgate
            exact pure fun _ _ h => h.fromStore (.inl hgate)
      · apply bind (startFreshRun_triple guard_)
        intro run
        apply bind loadOpen_triple
        exact fun state => pure fun _ _ h => h

theorem proceed_triple (guard_ : FenceGuard) (input : V)
    (workflowStartTime : Int) (state : Option WorkflowState) :
    Triple (fun _ => True) (fun w => Seen ctx p.workflowId state w ∧ IsOpen state)
      (ctx.proceed p guard_ input workflowStartTime state) (CycleEnds ctx p.workflowId)
      fun _ _ => True := by
  unfold proceed
  split
  · exact throw fun _ _ _ => trivial
  · split
    · exact rollBackAndFail_triple _ _ _ _ _
    · apply bind (Q := fun _ w => Seen ctx p.workflowId state w ∧ IsOpen state)
      · intro ms w hi h
        obtain ⟨-, hpost⟩ := clockNow_triple Seen.stable (E := fun _ _ => True) ms w hi h.1
        refine ⟨trivial, ?_⟩
        split at hpost
        · exact ⟨hpost, h.2⟩
        · trivial
        · trivial
      · exact fun now => driveAttempts_triple _ _ _ _ _ _ _

/-- What a cycle starts from: the run as it was read with the lock, or nothing yet. -/
def Preloaded (ctx : WorkflowOrchestrationContext V) (workflowId : String) :
    Option (Option WorkflowState) → DriverWorld (DriveEvent V) → Prop
  | some state, w => Seen ctx workflowId state w
  | none, w => Driving w

theorem Preloaded.stable {preloaded : Option (Option WorkflowState)} :
    Stable (interfere workflowId) (Preloaded ctx workflowId preloaded) := by
  cases preloaded with
  | some state => exact Seen.stable
  | none => exact Driving.stable

/-- **A cycle answers for the run without a completion, or completes it.** -/
theorem runOneOrchestrationCycle_triple (guard_ : FenceGuard)
    (preloaded : Option (Option WorkflowState)) :
    Triple (fun _ => True) (Preloaded ctx p.workflowId preloaded)
      (ctx.runOneOrchestrationCycle p guard_ preloaded) (CycleEnds ctx p.workflowId)
      fun _ _ => True := by
  unfold runOneOrchestrationCycle
  apply bind (Q := fun _ => Preloaded ctx p.workflowId preloaded)
  · exact clockNow_triple Preloaded.stable
  · intro workflowStartTime
    apply bind (Q := Seen ctx p.workflowId)
    · cases preloaded with
      | some state => exact pure fun _ _ h => h
      | none => exact loadWorkflow_triple
    · intro state
      apply bind (checkIdempotency_triple p guard_ state)
      intro entry
      cases entry with
      | answered v => exact pure fun _ _ h => .inl h
      | proceeds state =>
        apply bind (createOrCheck_triple p state)
        intro state
        apply bind (entryGate_triple p guard_ state)
        intro entry
        cases entry with
        | answered v => exact pure fun _ _ h => .inl h
        | proceeds state => exact proceed_triple p guard_ _ workflowStartTime state

/-! ## A call -/

theorem quietCall_triple
    {call : InMemoryWorkflowStorage → InMemoryWorkflowStorage × Except StorageError α} :
    Triple (fun _ => True) Driving (storageCall workflowId [] call)
      (fun _ => Driving (V := V)) fun _ _ => True := by
  apply storageCall_triple (fun _ _ _ => trivial) Driving.stable
  · intro w s a _ h _
    rw [append_nil]
    exact ⟨trivial, h⟩
  · exact fun _ _ _ _ _ _ => ⟨trivial, trivial⟩

theorem runChain_triple (guard_ : FenceGuard) (left : Nat) (p : RunParams V)
    (preloaded : Option (Option WorkflowState)) :
    Triple (fun _ => True) (Preloaded ctx p.workflowId preloaded)
      (ctx.runChain guard_ left p preloaded) (Answered ctx p.workflowId)
      fun _ _ => True := by
  induction left generalizing p preloaded with
  | zero => exact throw fun _ _ _ => trivial
  | succ left ih =>
    unfold runChain
    apply bind (runOneOrchestrationCycle_triple p guard_ preloaded)
    intro ended
    cases ended with
    | returned v => exact pure fun _ _ h => h
    | continued nextInput run =>
      -- The next run of the chain is read anew.
      apply bind quietCall_triple
      intro number
      exact ih _ none

theorem tryLockAndLoad_triple :
    Triple (fun _ => True) Driving (ctx.tryLockAndLoad workflowId)
      (fun locked w => match locked with
        | some (_, state) => Seen ctx workflowId state w
        | none => Driving w) fun _ _ => True := by
  unfold tryLockAndLoad
  apply Prog.Triple.act (fun _ _ _ => trivial) Driving.stable
  intro w _ h
  generalize hlock : w.storage.tryLock workflowId ctx.lockDurationMs none = locked
  obtain ⟨s, locked⟩ := locked
  refine ⟨trivial, ?_⟩
  cases hacquired : locked.acquired with
  | true =>
    simp only [hacquired, if_true]
    exact seen_loaded h
  | false =>
    simp only [hacquired, Bool.false_eq_true, if_false]
    exact h

theorem withLock_triple (workflowId : String)
    {fn : FenceGuard → Option WorkflowState → Drive (DriveEvent V) V}
    (h : ∀ token state, Triple (fun _ => True) (Seen ctx workflowId state)
      (fn token state) (Answered ctx workflowId) fun _ _ => True) :
    Triple (fun _ => True) Driving (ctx.withLock workflowId fn)
      (Answered ctx workflowId) fun _ _ => True := by
  unfold withLock
  apply bind tryLockAndLoad_triple
  intro locked
  cases locked with
  | none => exact throw fun _ _ _ => trivial
  | some locked =>
    obtain ⟨token, state⟩ := locked
    let Ended := fun (ended : Except Thrown V) (w : DriverWorld (DriveEvent V)) =>
      ∀ v, ended = .ok v → Answered ctx workflowId v w
    have hended : ∀ ended, Stable (interfere workflowId) (Ended ended) := by
      intro ended moment w hw v hv
      exact (hw v hv).congr (interfere_workflows workflowId moment w) rfl
    apply bind (Q := Ended)
    · apply tryCatch (R := fun _ _ => True)
      · apply bind (h token state)
        intro v
        apply Triple.pure
        intro w _ hw v' heq
        cases heq
        exact hw
      · exact fun error => pure fun _ _ _ => nofun
    · intro ended
      apply bind (Q := fun _ => Ended ended)
      · apply storageCall_triple (fun _ _ _ => trivial) (hended ended)
        · intro w s a _ hw hcall
          cases hcall
          refine ⟨trivial, ?_⟩
          intro v hv
          exact (hw v hv).congr rfl (append_nil _)
        · exact fun _ _ _ _ _ _ => ⟨trivial, trivial⟩
      · intro _
        cases ended with
        | ok v => exact pure fun _ _ hw => hw v rfl
        | error error => exact throw fun _ _ _ => trivial

theorem precheck_triple :
    Triple (fun _ => True) Driving (ctx.precheck p)
      (fun cached w => Driving w ∧ ∀ v, cached = some v → FromStore ctx p.workflowId v w)
      fun _ _ => True := by
  unfold precheck
  split
  · exact pure fun _ _ h => ⟨h, nofun⟩
  · apply bind (Q := Seen ctx p.workflowId) loadWorkflow_triple
    intro state
    cases state with
    | none => exact pure fun _ _ h => ⟨h.driving, nofun⟩
    | some existing =>
      apply bind (Q := fun _ => Seen ctx p.workflowId (some existing))
      · exact clockNow_triple Seen.stable
      · intro now
        cases hcached : ctx.cachedIdempotentOutcome existing now with
        | error error => exact throw fun _ _ _ => trivial
        | ok cached =>
          apply Triple.pure
          intro w _ h
          refine ⟨h.driving, ?_⟩
          intro v hv
          subst hv
          exact h.fromStore (.inr ⟨now, hcached⟩)

/-- **A call answers from the store, or completes the run.** -/
theorem runWorkflowOrchestration_triple :
    Triple (fun _ => True) Driving (ctx.runWorkflowOrchestration p)
      (Answered ctx p.workflowId) fun _ _ => True := by
  unfold runWorkflowOrchestration
  apply bind (precheck_triple p)
  intro cached
  cases cached with
  | some v => exact pure fun _ _ h => .inl (h.2 v rfl)
  | none =>
    apply (withLock_triple p.workflowId fun token state => ?_).conseq
      (fun _ _ h => h.1) (fun _ _ _ h => h) fun _ _ _ h => h
    split
    · exact throw fun _ _ _ => trivial
    · exact runChain_triple token maxContinueAsNewChain p (some state)

theorem run_triple (idempotencyKeyTTL : Option Int) :
    Triple (fun _ => True) Driving (ctx.run p idempotencyKeyTTL)
      (fun v w => ∃ workflowId, Answered ctx workflowId v w) fun _ _ => True := by
  have hcall : ∀ p' : RunParams V, Triple (fun _ => True) Driving
      (ctx.runWorkflowOrchestration p')
      (fun v w => ∃ workflowId, Answered ctx workflowId v w) fun _ _ => True :=
    fun p' => (runWorkflowOrchestration_triple p').conseq (fun _ _ h => h)
      (fun _ _ _ h => ⟨_, h⟩) fun _ _ _ h => h
  unfold run
  split
  · split
    · exact throw fun _ _ _ => trivial
    · apply bind (Q := fun _ => Driving)
      · exact clockNow_triple Driving.stable
      · intro now
        apply bind quietCall_triple
        exact fun hit => hcall _
  · exact hcall _

/-! ## The answers for a completed run -/

/-- The last step's result goes through its codec and the storage unchanged: its stored form
    decodes as the drive decoded it, and the decoded value is stored as it is. -/
structure RoundTrips (ctx : WorkflowOrchestrationContext V) (h : HeldResult V) : Prop where
  row : ctx.steps.lastStep.codec.decode (ctx.json.loaded h.stored) =
    ctx.steps.lastStep.codec.decode h.value
  result : ∀ v, ctx.steps.lastStep.codec.decode h.value = .ok v →
    ctx.json.loaded (ctx.json.stored v) = v

/-- Whoever asks for the completed run is told the same value. -/
structure AnswersAgree (ctx : WorkflowOrchestrationContext V) (workflowId : String)
    (wf : MutableWorkflow) (v : V) : Prop where
  gate : ctx.completedRunResult wf.toWorkflowState = .ok v
  cached : ∀ now answer,
    ctx.cachedIdempotentOutcome wf.toWorkflowState now = .ok (some answer) → answer = v
  /-- Later calls that do not complete a run themselves. -/
  run : ∀ (p : RunParams V) (schedule rest : List Moment) (s : InMemoryWorkflowStorage)
    (w : DriverWorld (DriveEvent V)) (answer : V), p.workflowId = workflowId →
      ctx.runWorkflowOrchestration p schedule ⟨s, []⟩ = (.ok answer, rest, w) → Driving w →
        w.storage.workflows.get workflowId = some wf → answer = v
  waiter : ∀ (s : InMemoryWorkflowStorage) (watch : ResultWatch) (number : Nat),
    s.workflows.get workflowId = some wf → watch.Watches workflowId number →
      (number, .resolved v) ∈ (watch.checkResults ctx.json s).1

theorem AnswersAgree.of_stored {wf : MutableWorkflow}
    (hgate : ctx.completedRunResult wf.toWorkflowState = .ok v)
    (hstatus : wf.status = .completed) (hresult : ctx.loadedResult wf.result = v) :
    AnswersAgree ctx workflowId wf v := by
  have hcached : ∀ now answer,
      ctx.cachedIdempotentOutcome wf.toWorkflowState now = .ok (some answer) → answer = v := by
    intro now answer hanswer
    unfold cachedIdempotentOutcome at hanswer
    split at hanswer
    · exact nomatch hanswer
    · split at hanswer
      · exact nomatch hanswer
      · split at hanswer
        · exact nomatch hanswer
        · cases hanswer
          exact hresult
  refine ⟨hgate, hcached, ?_, ?_⟩
  · intro p schedule rest s w answer hid hrun hdriving hwf
    subst hid
    have hpost := (runWorkflowOrchestration_triple p).answered hrun trivial fun _ => nofun
    cases hpost with
    | inl hstore =>
      rcases hstore.answer wf hwf with hanswer | ⟨now, hanswer⟩
      · rw [hgate] at hanswer
        cases hanswer
        rfl
      · exact hcached now answer hanswer
    | inr hcompleted => exact absurd hcompleted.done (hdriving _)
  · intro s watch number hwf hwatches
    rw [mem_checkResults]
    refine ⟨workflowId, hwatches, ?_⟩
    rw [hwf, map_some]
    unfold settlementOf
    simp only [hstatus]
    rw [← hresult]
    rfl

/-- **All answers for a run agree with the value its drive answered if and only if the last
    step's result round-trips**, for every call that completes a run. -/
theorem completed_answers_agree_iff (p : RunParams V) (idempotencyKeyTTL : Option Int)
    (schedule rest : List Moment) (s : InMemoryWorkflowStorage)
    (w : DriverWorld (DriveEvent V)) (v : V) (wf : MutableWorkflow)
    (hrun : ctx.run p idempotencyKeyTTL schedule ⟨s, []⟩ = (.ok v, rest, w))
    (hdone : .completed workflowId ∈ w.events)
    (hwf : w.storage.workflows.get workflowId = some wf) (hstatus : wf.status = .completed) :
    ∃ h, lastHeld ctx.json ctx.steps.lastStep.name w.events = some h ∧
      (AnswersAgree ctx workflowId wf v ↔ RoundTrips ctx h) := by
  obtain ⟨id, hanswered⟩ := (run_triple p idempotencyKeyTTL).answered hrun trivial
    fun _ => nofun
  cases hanswered with
  | inl hstore => exact absurd hdone (hstore.driving _)
  | inr hcompleted =>
    cases hcompleted.own _ hdone
    obtain ⟨h, hheld, hdecode, hrow⟩ := hcompleted.held
    obtain ⟨hresult, hkeeps⟩ := hrow wf hwf hstatus
    obtain ⟨row, hget, hrowdone, hstored⟩ := hkeeps h rfl
    have hgate : ctx.completedRunResult wf.toWorkflowState =
        ctx.steps.lastStep.codec.decode (ctx.json.loaded h.stored) := by
      unfold completedRunResult
      rw [hget, ← hstored]
      exact if_pos hrowdone
    have hloaded : ctx.loadedResult wf.result = ctx.json.loaded (ctx.json.stored v) := by
      rw [hresult]
      rfl
    refine ⟨h, hheld, ?_, ?_⟩
    · intro hagree
      constructor
      · rw [hdecode, ← hgate]
        exact hagree.gate
      · intro v' hv'
        rw [hdecode] at hv'
        cases hv'
        -- One waiter of the run is enough to read the stored result.
        have hwatches := watches_watchResult_empty.mpr
          ⟨(rfl : workflowId = workflowId), (rfl : (0 : Nat) = 0)⟩
        have hsettled := hagree.waiter w.storage _ 0 hwf hwatches
        rw [mem_checkResults] at hsettled
        obtain ⟨id, hid, hanswer⟩ := hsettled
        rw [watches_watchResult_empty] at hid
        rw [hid.1, hwf, map_some] at hanswer
        unfold settlementOf at hanswer
        simp only [hstatus] at hanswer
        injection hanswer with hanswer
        injection hanswer with hanswer
        rw [← hloaded]
        exact hanswer
    · intro hround
      apply AnswersAgree.of_stored
      · rw [hgate, hround.row, hdecode]
      · exact hstatus
      · rw [hloaded]
        exact hround.result v hdecode

variable (codec : StepCodec JsValue)

/-- A workflow of one step, whose result is encoded as `0`. -/
def shipContext : WorkflowOrchestrationContext JsValue where
  json := ⟨JsValue.parsed, id⟩
  name := "order"
  steps := ⟨[{ name := "ship", dependsOn := [], codec := codec }], by simp, by simp⟩
  idempotency := some { ttl := .always 1000 }
  body := fun _ _ => .completed (.num 0) none

def shipRun : Except (Stop Thrown) JsValue × List Moment × DriverWorld (DriveEvent JsValue) :=
  (shipContext codec).run { workflowId := "w", input := .null } none (replicate 20 [])
    ⟨.new { instanceId := "i" }, []⟩

/-- The record that `shipRun` leaves. -/
def shippedWorkflow : Option MutableWorkflow :=
  (shipRun codec).2.2.storage.workflows.get "w"

/-- Results as they are. -/
def plainCodec : StepCodec JsValue where
  encode v := .ok v
  decode v := .ok v

/-- Dates as epoch milliseconds. -/
def dateCodec : StepCodec JsValue where
  encode
    | .date ms => .ok (.num ms)
    | v => .ok v
  decode
    | .num ms => .ok (.date ms)
    | v => .ok v

theorem completed_answers_agree_iff_plain :
    ∃ wf h, shippedWorkflow plainCodec = some wf ∧
      lastHeld (shipContext plainCodec).json "ship" (shipRun plainCodec).2.2.events = some h ∧
      (AnswersAgree (shipContext plainCodec) "w" wf (.num 0) ↔
        RoundTrips (shipContext plainCodec) h) := by
  have hanswer : (shipRun plainCodec).1 = .ok (.num 0) := by decide +kernel
  have hdone : .completed "w" ∈ (shipRun plainCodec).2.2.events := by
    have hany : (shipRun plainCodec).2.2.events.any
        (fun | .completed id => id == "w" | _ => false) = true := by decide +kernel
    obtain ⟨event, hmem, hevent⟩ := any_eq_true.mp hany
    cases event <;> simp_all
  have hstatus : (shippedWorkflow plainCodec).map (·.status) = some .completed := by
    decide +kernel
  obtain ⟨wf, hwf, hcompleted⟩ := map_eq_some_iff.mp hstatus
  obtain ⟨h, hheld, hiff⟩ := completed_answers_agree_iff _ _ _ _ _ _ _ wf
    (Prod.ext hanswer rfl) hdone hwf hcompleted
  exact ⟨wf, h, hwf, hheld, hiff⟩

/-- The drive answers the decoded date, and so does the entry gate.  The idempotency cache and
    the result waiter answer the text that the date was stored as. -/
theorem decoded_date_counterexample :
    let ctx := shipContext dateCodec
    (shipRun dateCodec).1 = .ok (.date 0) ∧
    (shippedWorkflow dateCodec).map (fun wf => (wf.status, ctx.loadedResult wf.result,
      ctx.completedRunResult wf.toWorkflowState,
      ctx.cachedIdempotentOutcome wf.toWorkflowState 0)) =
      some (.completed, .str "1970-01-01T00:00:00.000Z", .ok (.date 0),
        .ok (some (.str "1970-01-01T00:00:00.000Z"))) ∧
    ∀ wf, shippedWorkflow dateCodec = some wf → ¬ AnswersAgree ctx "w" wf (.date 0) := by
  intro ctx
  have hanswers : (shippedWorkflow dateCodec).map (fun wf => (wf.status,
      ctx.loadedResult wf.result, ctx.completedRunResult wf.toWorkflowState,
      ctx.cachedIdempotentOutcome wf.toWorkflowState 0)) =
      some (.completed, .str "1970-01-01T00:00:00.000Z", .ok (.date 0),
        .ok (some (.str "1970-01-01T00:00:00.000Z"))) := by
    decide +kernel
  refine ⟨by decide +kernel, hanswers, ?_⟩
  intro wf hwf hagree
  rw [hwf, map_some] at hanswers
  injection hanswers with hanswers
  injection hanswers with _ hanswers
  injection hanswers with _ hanswers
  injection hanswers with _ hcached
  exact nomatch hagree.cached 0 _ hcached

end WorkflowOrchestrationContext

end Promin.Durable

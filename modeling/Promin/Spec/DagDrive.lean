import Promin.Spec.Driving
import Promin.Spec.ReadyTracker
import Promin.Durable.DagExecutor

/-!
# What a drive holds of a step

For one step of the run, `lastHeld` reads off the events of a drive what the
drive has of its result: the encoded value it decodes, and what the storage
keeps of it.
-/

namespace Promin.Durable

open InMemoryWorkflowStorage List JsMap Option Prog Triple
open DagExecutionContext ReadyTracker WorkflowSteps

variable {V : Type}

/-! ## Holding a result -/

/-- A step's result in a drive: the encoded value that is decoded, and its stored form. -/
structure HeldResult (V : Type) where
  value : V
  stored : JsValue

section

variable (json : JsonValues V) (name : String)

/-- What a load of the run gives: the stored form of a completed row. -/
def heldRow (steps : JsMap String StepState) : Option (HeldResult V) :=
  match steps.get name with
  | some row =>
    if row.status = .completed then
      some ⟨json.loaded (row.result.getD .undefined), row.result.getD .undefined⟩
    else none
  | none => none

def heldOutcome (held : Option (HeldResult V)) : SettledStep V → Option (HeldResult V)
  | .completed stepName result .. =>
    if stepName = name then some ⟨result, json.stored result⟩ else held
  | .failed stepName .. => if stepName = name then none else held
  | .suspended .. => held
  | .continueAsNew .. => held

def heldAfter (held : Option (HeldResult V)) : DriveEvent V → Option (HeldResult V)
  | .loaded steps => heldRow json name steps
  | .checkpointed outcome => heldOutcome json name held outcome
  | .ran .. => held
  | .completed _ => held

/-- What the drive with these events has of the step called `name`. -/
def lastHeld (events : List (DriveEvent V)) : Option (HeldResult V) :=
  events.foldl (heldAfter json name) none

theorem lastHeld_concat (events : List (DriveEvent V)) (e : DriveEvent V) :
    lastHeld json name (events ++ [e]) = heldAfter json name (lastHeld json name events) e := by
  rw [lastHeld, foldl_append]
  rfl

end

/-- The row of the run keeps what the drive holds. -/
def Keeps (name : String) (wf : MutableWorkflow) (held : Option (HeldResult V)) : Prop :=
  ∀ h, held = some h → ∃ row, wf.steps.get name = some row ∧ row.status = .completed ∧
    row.result.getD .undefined = h.stored

theorem keeps_heldRow (json : JsonValues V) (name : String) (wf : MutableWorkflow) :
    Keeps name wf (heldRow json name wf.steps) := by
  intro h hheld
  unfold heldRow at hheld
  cases hrow : wf.steps.get name with
  | none =>
    rw [hrow] at hheld
    cases hheld
  | some row =>
    simp only [hrow] at hheld
    split at hheld
    · rename_i hdone
      cases hheld
      exact ⟨row, rfl, hdone, rfl⟩
    · cases hheld

/-- The results in memory come from what the drive holds. -/
def ResultHeld (step : StepDefinition V) (results : JsMap String V)
    (held : Option (HeldResult V)) : Prop :=
  ∀ v, results.get step.name = some v →
    ∃ h, held = some h ∧ step.codec.decode h.value = .ok v

/-- No run was completed yet. -/
def Driving (w : DriverWorld (DriveEvent V)) : Prop :=
  ∀ workflowId, DriveEvent.completed workflowId ∉ w.events

theorem Driving.concat {w : DriverWorld (DriveEvent V)} (h : Driving w) {e : DriveEvent V}
    (he : ∀ workflowId, e ≠ .completed workflowId) {s : InMemoryWorkflowStorage} :
    Driving { storage := s, events := w.events ++ [e] } := by
  intro workflowId hmem
  cases mem_append.mp hmem with
  | inl hold => exact h workflowId hold
  | inr hnew => exact he workflowId (mem_singleton.mp hnew).symm

structure During (json : JsonValues V) (workflowId name : String) (held : Option (HeldResult V))
    (w : DriverWorld (DriveEvent V)) : Prop where
  holds : lastHeld json name w.events = held
  driving : Driving w
  row : ∀ wf, w.storage.workflows.get workflowId = some wf →
    wf.status.isTerminal = false ∧ Keeps name wf held

variable {workflowId : String}

theorem During.stable {json : JsonValues V} {name : String} {held : Option (HeldResult V)} :
    Stable (interfere workflowId) (During json workflowId name held) := by
  apply stable_of_rows
  intro w w' hrows hevents h
  refine ⟨?_, ?_, ?_⟩
  · rw [hevents]
    exact h.holds
  · unfold Driving
    rw [hevents]
    exact h.driving
  · rw [hrows]
    exact h.row

/-! ## Writing a step row -/

def RowWritten (s s' : InMemoryWorkflowStorage) (workflowId stepName : String)
    (good : StepState → Prop) : Prop :=
  ∀ wf', s'.workflows.get workflowId = some wf' →
    ∃ wf row, s.workflows.get workflowId = some wf ∧
      wf'.steps = wf.steps.set stepName row ∧ good row ∧
      wf'.status.isTerminal = wf.status.isTerminal

variable (s : InMemoryWorkflowStorage)

theorem markRunning_row (wf : MutableWorkflow) :
    (s.markRunning wf).steps = wf.steps ∧
      (s.markRunning wf).status.isTerminal = wf.status.isTerminal := by
  unfold markRunning
  split
  · rename_i hpending
    refine ⟨rfl, ?_⟩
    rw [hpending]
    rfl
  · exact ⟨rfl, rfl⟩

theorem writeStepResult_written (r : StepResultRecord) :
    RowWritten s (s.writeStepResult r) r.workflowId r.stepName fun row =>
      row.status = .completed ∧ row.result = some r.result := by
  intro wf' hget
  unfold writeStepResult at hget
  cases hwf : s.workflows.get r.workflowId with
  | none =>
    simp only [hwf] at hget
    cases hget
  | some wf =>
    obtain ⟨hsteps, hstatus⟩ := markRunning_row s wf
    simp only [hwf, emit, putRun, get_set_self] at hget
    cases hget
    refine ⟨wf, { s.settledStep (s.markRunning wf) r.stepName .completed r.metadata r.startedAt
      r.durationMs with result := some r.result }, rfl, ?_, ⟨rfl, rfl⟩, hstatus⟩
    show (s.markRunning wf).steps.set _ _ = _
    rw [hsteps]
    rfl

theorem writeStepFailure_written (r : StepFailureRecord) :
    RowWritten s (s.writeStepFailure r) r.workflowId r.stepName fun row =>
      row.status = .failed := by
  intro wf' hget
  unfold writeStepFailure at hget
  cases hwf : s.workflows.get r.workflowId with
  | none =>
    simp only [hwf] at hget
    cases hget
  | some wf =>
    obtain ⟨hsteps, hstatus⟩ := markRunning_row s wf
    simp only [hwf, emit, putRun, get_set_self] at hget
    cases hget
    refine ⟨wf, { s.settledStep (s.markRunning wf) r.stepName .failed r.metadata r.startedAt
      r.durationMs with error := some r.error, errorTag := r.errorTag }, rfl, ?_, rfl, hstatus⟩
    show (s.markRunning wf).steps.set _ _ = _
    rw [hsteps]
    rfl

/-- A call that is rejected without a change, or goes through with `R`. -/
def FencedCall {α : Type} (call : InMemoryWorkflowStorage → InMemoryWorkflowStorage ×
    Except StorageError α) (R : InMemoryWorkflowStorage → InMemoryWorkflowStorage → Prop) : Prop :=
  ∀ s, (∃ e, call s = (s, .error e)) ∨ ∃ s' a, call s = (s', .ok a) ∧ R s s'

theorem fenced_fencedCall {α : Type} {guard_ : FenceGuard}
    {body : InMemoryWorkflowStorage → InMemoryWorkflowStorage × Except StorageError α}
    {R : InMemoryWorkflowStorage → InMemoryWorkflowStorage → Prop}
    (h : ∀ s, ∃ s' a, body s = (s', .ok a) ∧ R s s') :
    FencedCall (fun s => s.fenced workflowId guard_ (body s)) R := by
  intro s
  rcases fenced_cases s workflowId guard_ (body s) with ⟨e, -, hrejected⟩ | ⟨-, hpassed⟩
  · exact .inl ⟨_, hrejected⟩
  · obtain ⟨s', a, hbody, hR⟩ := h s
    exact .inr ⟨s', a, hpassed.trans hbody, hR⟩

theorem fencedCall_triple {event α : Type} {events : List event}
    {call : InMemoryWorkflowStorage → InMemoryWorkflowStorage × Except StorageError α}
    {R : InMemoryWorkflowStorage → InMemoryWorkflowStorage → Prop}
    {P Q : DriverWorld event → Prop} (hcall : FencedCall call R)
    (hp : Stable (interfere workflowId) P)
    (hwrite : ∀ w s, P w → R w.storage s → Q { storage := s, events := w.events ++ events }) :
    Triple (fun _ => True) P (storageCall workflowId events call) (fun _ w => Q w)
      fun e w => P w ∧ (isControlFlowExit e = true → isAbandonRunExit e = true) := by
  apply storageCall_triple (fun _ _ h => h) hp
  · intro w s a _ hpre hok
    rcases hcall w.storage with ⟨e, herr⟩ | ⟨s', a', hthrough, hR⟩
    · rw [herr] at hok
      exact nomatch hok
    · rw [hthrough] at hok
      cases hok
      exact ⟨trivial, hwrite w s hpre hR⟩
  · intro w s e _ hpre herror
    rcases hcall w.storage with ⟨e', herr⟩ | ⟨s', a', hthrough, -⟩
    · rw [herr] at herror
      cases herror
      exact ⟨trivial, hpre, thrown_abandons e⟩
    · rw [hthrough] at herror
      exact nomatch herror

/-! ## A checkpoint -/

section

variable {x : DagExecutionContext V} {name : String}

theorem checkpointStep_fencedCall (c : StepCheckpoint) (guard_ : FenceGuard)
    (hattempts : c.attempts = []) :
    FencedCall (fun s => s.checkpointStep c guard_) fun s s' =>
      match c.outcome with
      | .completed result => RowWritten s s' c.workflowId c.stepName fun row =>
          row.status = .completed ∧ row.result = some result
      | .failed _ _ => RowWritten s s' c.workflowId c.stepName fun row => row.status = .failed := by
  apply fenced_fencedCall
  intro s
  cases hwf : s.workflows.get c.workflowId with
  | none =>
    refine ⟨s, none, rfl, ?_⟩
    split
    · intro wf' hget
      rw [hwf] at hget
      exact nomatch hget
    · intro wf' hget
      rw [hwf] at hget
      exact nomatch hget
  | some wf =>
    simp only [hattempts, foldl_nil]
    cases c.outcome with
    | completed result => exact ⟨_, _, rfl, writeStepResult_written s _⟩
    | failed error tag => exact ⟨_, _, rfl, writeStepFailure_written s _⟩

theorem saveStepResult_fencedCall (r : StepResultRecord) (guard_ : FenceGuard) :
    FencedCall (fun s => s.saveStepResult r guard_) fun s s' =>
      RowWritten s s' r.workflowId r.stepName fun row =>
        row.status = .completed ∧ row.result = some r.result :=
  fenced_fencedCall fun s => ⟨_, (), rfl, writeStepResult_written s r⟩

theorem saveStepFailure_fencedCall (r : StepFailureRecord) (guard_ : FenceGuard) :
    FencedCall (fun s => s.saveStepFailure r guard_) fun s s' =>
      RowWritten s s' r.workflowId r.stepName fun row => row.status = .failed :=
  fenced_fencedCall fun s => ⟨_, (), rfl, writeStepFailure_written s r⟩

variable {α : Type} {stepName : String} {held : Option (HeldResult V)}

theorem During.completed {w : DriverWorld (DriveEvent V)}
    {s : InMemoryWorkflowStorage} {result : V} {metadata : Option Record}
    {startedAt durationMs : Int} {skipped : Bool} (h : During x.json x.workflowId name held w)
    (hwritten : RowWritten w.storage s x.workflowId stepName fun row =>
      row.status = .completed ∧ row.result = some (x.json.stored result)) :
    let outcome := SettledStep.completed stepName result metadata startedAt durationMs skipped
    During x.json x.workflowId name (heldOutcome x.json name held outcome)
      { storage := s, events := w.events ++ [.checkpointed outcome] } := by
  intro outcome
  refine ⟨?_, ?_, ?_⟩
  · rw [lastHeld_concat, h.holds]
    rfl
  · apply h.driving.concat
    exact fun _ heq => nomatch heq
  · intro wf' hget
    obtain ⟨wf, row, hwf, hsteps, ⟨hdone, hresult⟩, hstatus⟩ := hwritten wf' hget
    obtain ⟨hopen, hkeeps⟩ := h.row wf hwf
    refine ⟨hstatus.trans hopen, ?_⟩
    intro got hgot
    simp only [outcome, heldOutcome] at hgot
    rw [hsteps, get_set]
    split at hgot
    · rename_i heq
      cases hgot
      exact ⟨row, if_pos heq, hdone, by rw [hresult, getD_some]⟩
    · rename_i hne
      rw [if_neg hne]
      exact hkeeps got hgot

theorem During.failed {w : DriverWorld (DriveEvent V)}
    {s : InMemoryWorkflowStorage} {error : Thrown}
    {metadata : Option Record} {startedAt durationMs : Int}
    (h : During x.json x.workflowId name held w)
    (hwritten : RowWritten w.storage s x.workflowId stepName fun row => row.status = .failed) :
    let outcome := SettledStep.failed stepName error metadata startedAt durationMs
    During x.json x.workflowId name (heldOutcome x.json name held outcome)
      { storage := s, events := w.events ++ [.checkpointed outcome] } := by
  intro outcome
  refine ⟨?_, ?_, ?_⟩
  · rw [lastHeld_concat, h.holds]
    rfl
  · apply h.driving.concat
    exact fun _ heq => nomatch heq
  · intro wf' hget
    obtain ⟨wf, row, hwf, hsteps, -, hstatus⟩ := hwritten wf' hget
    obtain ⟨hopen, hkeeps⟩ := h.row wf hwf
    refine ⟨hstatus.trans hopen, ?_⟩
    intro got hgot
    simp only [outcome, heldOutcome] at hgot
    split at hgot
    · exact nomatch hgot
    · rename_i hne
      rw [hsteps, get_set, if_neg hne]
      exact hkeeps got hgot

variable (x name)

def Checkpointed (held : Option (HeldResult V)) (outcome : SettledStep V)
    (c : CheckpointedStep V) (w : DriverWorld (DriveEvent V)) : Prop :=
  c.outcome = outcome ∧
    During x.json x.workflowId name (heldOutcome x.json name held outcome) w

variable {x name}

private theorem checkpointed_triple {outcome : SettledStep V} {operation : String}
    {call : InMemoryWorkflowStorage → InMemoryWorkflowStorage × Except StorageError α}
    {R : InMemoryWorkflowStorage → InMemoryWorkflowStorage → Prop}
    {f : α → Option (Option WorkflowStatusSnapshot)} (hcall : FencedCall call R)
    (hwrite : ∀ w s, During x.json x.workflowId name held w → R w.storage s →
      During x.json x.workflowId name (heldOutcome x.json name held outcome)
        { storage := s, events := w.events ++ [.checkpointed outcome] }) :
    Triple (fun _ => True) (During x.json x.workflowId name held)
      (do
        let a ← checkpointWrite x.workflowId operation stepName
          (storageCall x.workflowId [.checkpointed outcome] call)
        pure ⟨outcome, f a⟩)
      (Checkpointed x name held outcome)
      fun _ => During x.json x.workflowId name held := by
  apply bind
    (Q := fun _ => During x.json x.workflowId name (heldOutcome x.json name held outcome))
  · apply (checkpointWrite_triple (fencedCall_triple hcall During.stable hwrite)).conseq
    · exact fun _ _ h => h
    · exact fun _ _ _ h => h
    · exact fun _ _ _ h => h.1
  · exact fun a => pure fun w _ h => ⟨rfl, h⟩

/-- **A checkpoint writes what the drive then holds.** One that fails changes nothing. -/
theorem checkpointStepOutcome_triple (held : Option (HeldResult V)) (outcome : SettledStep V) :
    Triple (fun _ => True) (During x.json x.workflowId name held)
      (x.checkpointStepOutcome outcome) (Checkpointed x name held outcome)
      fun _ => During x.json x.workflowId name held := by
  cases outcome with
  | suspended stepName error | continueAsNew stepName nextInput =>
    exact pure fun w _ h => ⟨rfl, h⟩
  | completed stepName result metadata startedAt durationMs skipped =>
    unfold checkpointStepOutcome
    simp only
    split
    · exact checkpointed_triple (f := some) (checkpointStep_fencedCall _ _ rfl)
        fun w s h hwritten => h.completed hwritten
    · exact checkpointed_triple (f := fun _ => none) (saveStepResult_fencedCall _ _)
        fun w s h hwritten => h.completed hwritten
  | failed stepName error metadata startedAt durationMs =>
    unfold checkpointStepOutcome
    simp only
    split
    · exact checkpointed_triple (f := some) (checkpointStep_fencedCall _ _ rfl)
        fun w s h hwritten => h.failed hwritten
    · exact checkpointed_triple (f := fun _ => none) (saveStepFailure_fencedCall _ _)
        fun w s h hwritten => h.failed hwritten

/-! ## A wave -/

theorem clockNow_triple {workflowId : String} {P : DriverWorld (DriveEvent V) → Prop}
    (hp : Stable (interfere workflowId) P) {E : Thrown → DriverWorld (DriveEvent V) → Prop} :
    Triple (fun _ => True) P (clockNow workflowId) (fun _ => P) E :=
  read_triple (fun _ _ h => h) hp fun _ _ h => h

theorem ok_of_bind {ε β : Type} {m : Except ε α} {f : α → Except ε β} {b : β}
    (h : (m >>= f) = .ok b) : ∃ a, m = .ok a ∧ f a = .ok b := by
  cases m with
  | error e => exact nomatch h
  | ok a => exact ⟨a, rfl, h⟩

theorem skippedOutcome_name {step : StepDefinition V} {input : V} {results : JsMap String V}
    {now : Int} {outcome : SettledStep V}
    (h : x.skippedOutcome step input results now = .ok (some outcome)) :
    outcome.name = step.name := by
  unfold skippedOutcome at h
  cases hskip : step.skipWhen with
  | none =>
    rw [hskip] at h
    exact nomatch h
  | some skipWhen =>
    rw [hskip] at h
    obtain ⟨skips, -, h⟩ := ok_of_bind h
    cases skips with
    | false => cases h
    | true =>
      rw [if_pos rfl] at h
      cases hvalue : step.skipValue with
      | none | some skipValue =>
        rw [hvalue] at h
        obtain ⟨skipResult, -, h⟩ := ok_of_bind h
        obtain ⟨encoded, -, h⟩ := ok_of_bind h
        cases h
        rfl

theorem outcomeOfBody_name (stepName : String) (startedAt durationMs : Int) (exit : StepExit V) :
    (outcomeOfBody stepName startedAt durationMs exit).name = stepName := by
  cases exit <;> rfl

theorem runBody_triple (held : Option (HeldResult V)) (step : StepDefinition V) :
    Triple (fun _ => True) (During x.json x.workflowId name held) (x.runBody step)
      (fun _ => During x.json x.workflowId name held)
      fun _ => During x.json x.workflowId name held := by
  unfold runBody
  apply Prog.Triple.act (fun _ _ _ => trivial) During.stable
  intro w _ h
  refine ⟨trivial, ?_, ?_, h.row⟩
  · rw [lastHeld_concat, h.holds]
    rfl
  · apply h.driving.concat
    exact fun _ heq => nomatch heq

theorem runStep_triple (held : Option (HeldResult V)) (input : V) (results : JsMap String V)
    (step : StepDefinition V) :
    Triple (fun _ => True) (During x.json x.workflowId name held)
      (x.runStep input results step)
      (fun c w => c.outcome.name = step.name ∧
        During x.json x.workflowId name (heldOutcome x.json name held c.outcome) w)
      fun _ => During x.json x.workflowId name held := by
  have hcheckpoint : ∀ outcome : SettledStep V, outcome.name = step.name →
      Triple (fun _ => True) (During x.json x.workflowId name held)
        (x.checkpointStepOutcome outcome)
        (fun c w => c.outcome.name = step.name ∧
          During x.json x.workflowId name (heldOutcome x.json name held c.outcome) w)
        fun _ => During x.json x.workflowId name held := by
    intro outcome hname
    apply (checkpointStepOutcome_triple held outcome).conseq
    · exact fun _ _ h => h
    · rintro c w _ ⟨rfl, hduring⟩
      exact ⟨hname, hduring⟩
    · exact fun _ _ _ h => h
  unfold runStep
  apply bind (Q := fun _ => During x.json x.workflowId name held)
  · exact clockNow_triple During.stable
  · intro startedAt
    cases hskip : x.skippedOutcome step input results startedAt with
    | error error => exact throw fun _ _ h => h
    | ok skipped =>
      cases skipped with
      | some outcome => exact hcheckpoint outcome (skippedOutcome_name hskip)
      | none =>
        apply bind (runBody_triple held step)
        intro exit
        apply bind (Q := fun _ => During x.json x.workflowId name held)
        · exact clockNow_triple During.stable
        · exact fun settledAt => hcheckpoint _ (outcomeOfBody_name _ _ _ _)

def heldEntry (json : JsonValues V) (name : String) (held : Option (HeldResult V)) :
    Except Thrown (CheckpointedStep V) → Option (HeldResult V)
  | .ok c => heldOutcome json name held c.outcome
  | .error _ => held

def EntryOf (step : StepDefinition V) (entry : Except Thrown (CheckpointedStep V)) : Prop :=
  ∀ c, entry = .ok c → c.outcome.name = step.name

theorem allSettled_triple (input : V) (results : JsMap String V)
    (steps : List (StepDefinition V)) (held : Option (HeldResult V))
    {E : Thrown → DriverWorld (DriveEvent V) → Prop} :
    Triple (fun _ => True) (During x.json x.workflowId name held)
      (x.allSettled input results steps)
      (fun entries w => List.Forall₂ EntryOf steps entries ∧
        During x.json x.workflowId name (entries.foldl (heldEntry x.json name) held) w) E := by
  induction steps generalizing held E with
  | nil => exact pure fun _ _ h => ⟨.nil, h⟩
  | cons step rest ih =>
    unfold allSettled
    apply bind (Q := fun entry w => EntryOf step entry ∧
      During x.json x.workflowId name (heldEntry x.json name held entry) w)
    · apply tryCatch (R := fun _ => During x.json x.workflowId name held)
      · apply bind (runStep_triple held input results step)
        intro c
        apply Triple.pure
        rintro w - ⟨hname, hduring⟩
        refine ⟨?_, hduring⟩
        rintro c' heq
        cases heq
        exact hname
      · intro error
        apply Triple.pure
        intro w _ hduring
        refine ⟨?_, hduring⟩
        intro c' heq
        cases heq
    · intro entry
      apply bind (Q := fun others w => EntryOf step entry ∧
        List.Forall₂ EntryOf rest others ∧ During x.json x.workflowId name
          (others.foldl (heldEntry x.json name) (heldEntry x.json name held entry)) w)
      · have hrest := ih (heldEntry x.json name held entry) (E := E)
        intro ms w hi hw
        obtain ⟨-, hpost⟩ := hrest ms w hi hw.2
        refine ⟨trivial, ?_⟩
        split at hpost
        · exact ⟨hw.1, hpost⟩
        · exact hpost
        · trivial
      · exact fun others => pure fun _ _ h => ⟨.cons h.1 h.2.1, h.2.2⟩

theorem mapM_id_ok {ε : Type} {entries : List (Except ε α)} {as : List α}
    (h : entries.mapM id = .ok as) : entries = as.map .ok := by
  induction entries generalizing as with
  | nil =>
    cases h
    rfl
  | cons entry rest ih =>
    rw [mapM_cons] at h
    cases entry with
    | error e => exact nomatch h
    | ok a =>
      cases hrest : rest.mapM id with
      | error e =>
        rw [hrest] at h
        exact nomatch h
      | ok as' =>
        rw [hrest] at h
        cases h
        rw [ih hrest, map_cons]

/-- **A wave leaves what its outcomes leave, in order.** -/
theorem settleWave_triple (input : V) (results : JsMap String V)
    (readySteps : List (StepDefinition V)) (held : Option (HeldResult V)) :
    Triple (fun _ => True) (During x.json x.workflowId name held)
      (x.settleWave input results readySteps)
      (fun settled w =>
        During x.json x.workflowId name
          (settled.outcomes.foldl (heldOutcome x.json name) held) w ∧
        settled.outcomes.map (·.name) = readySteps.map (·.name))
      fun _ _ => True := by
  unfold settleWave
  apply bind (allSettled_triple input results readySteps held)
  intro entries
  cases hall : entries.mapM id with
  | error error => exact throw fun _ _ _ => trivial
  | ok steps =>
    have hentries := mapM_id_ok hall
    subst hentries
    apply Triple.pure
    rintro w - ⟨hof, hduring⟩
    constructor
    · show During _ _ _ ((steps.map (·.outcome)).foldl _ held) w
      rw [foldl_map] at hduring ⊢
      exact hduring
    · show (steps.map (·.outcome)).map (·.name) = _
      rw [forall₂_map_right_iff] at hof
      clear hduring hall
      induction hof with
      | nil => rfl
      | cons hname _ ih => rw [map_cons, map_cons, map_cons, ih, hname _ rfl]

end

/-! ## Folding a wave back in -/

section

variable {x : DagExecutionContext V} {outcomes : List (SettledStep V)}
  {progress progress' : DagProgress V}

theorem byName_some {steps : WorkflowSteps V} {name : String} {step : StepDefinition V}
    (h : steps.byName name = some step) : step ∈ steps.list ∧ step.name = name := by
  have hname := find?_some h
  exact ⟨mem_of_find?_eq_some h, by simpa using hname⟩

theorem byName_of_mem {steps : WorkflowSteps V} {step : StepDefinition V}
    (h : step ∈ steps.list) : steps.byName step.name = some step := by
  cases hfind : steps.byName step.name with
  | none =>
    have hnot := find?_eq_none.mp hfind step h
    simp at hnot
  | some other =>
    obtain ⟨hmem, hname⟩ := byName_some hfind
    rw [inj_on_of_nodup_map steps.names hmem h hname]

theorem lastStep_mem (steps : WorkflowSteps V) : steps.lastStep ∈ steps.list :=
  getLast_mem steps.nonempty

theorem dagNodes_names (steps : WorkflowSteps V) :
    steps.dagNodes.map (·.name) = steps.list.map (·.name) := by
  simp [dagNodes]

theorem nodup_dagNodes (steps : WorkflowSteps V) : (steps.dagNodes.map (·.name)).Nodup := by
  rw [dagNodes_names]
  exact steps.names

def SettledStep.IsCompleted : SettledStep V → Prop
  | .completed .. => True
  | .failed .. => False
  | .suspended .. => False
  | .continueAsNew .. => False

theorem isCompleted_of_waveExit {fire : Option (String × JsValue)}
    (h : waveExit outcomes fire = none) :
    ∀ outcome ∈ outcomes, outcome.IsCompleted := by
  simp only [waveExit, or_eq_none_iff, findSome?_eq_none_iff] at h
  obtain ⟨⟨⟨hfailed, hcontinued⟩, hsuspended⟩, -⟩ := h
  intro outcome hmem
  cases outcome with
  | completed => trivial
  | failed => exact nomatch hfailed _ hmem
  | suspended => exact nomatch hsuspended _ hmem
  | continueAsNew => exact nomatch hcontinued _ hmem

theorem waveExit_ends {fire : Option (String × JsValue)} {exit : DagExecutionResult V}
    (h : waveExit outcomes fire = some exit) :
    (∀ v, exit ≠ .success v) ∧ exit ≠ .unfinished := by
  simp only [waveExit, or_eq_some_iff] at h
  rcases h with ((hfailed | ⟨-, hcontinued⟩) | ⟨-, hsuspended⟩) | ⟨-, hfired⟩
  · obtain ⟨outcome, -, hexit⟩ := exists_of_findSome?_eq_some hfailed
    split at hexit <;> cases hexit
    exact ⟨nofun, nofun⟩
  · obtain ⟨outcome, -, hexit⟩ := exists_of_findSome?_eq_some hcontinued
    split at hexit <;> cases hexit
    exact ⟨nofun, nofun⟩
  · obtain ⟨outcome, -, hexit⟩ := exists_of_findSome?_eq_some hsuspended
    split at hexit <;> cases hexit
    exact ⟨nofun, nofun⟩
  · obtain ⟨fired, -, hexit⟩ := map_eq_some_iff.mp hfired
    cases hexit
    exact ⟨nofun, nofun⟩

def Tracked (x : DagExecutionContext V) (progress : DagProgress V) : Prop :=
  Follows x.steps.dagNodes (fun name => (progress.results.get name).isSome)
    progress.tracker

/-- What folding one completed outcome does to the progress of a drive. -/
structure Folded (x : DagExecutionContext V)
    (progress progress' : DagProgress V)
    (held held' : Option (HeldResult V)) : Prop where
  tracked : Tracked x progress → Tracked x progress'
  linked : ResultHeld x.steps.lastStep progress.results held →
    ResultHeld x.steps.lastStep progress'.results held'
  grows : ∀ name, (progress.results.get name).isSome = true →
    (progress'.results.get name).isSome = true

theorem foldOutcome_folded {outcome : SettledStep V} (held : Option (HeldResult V))
    (hfold : x.foldOutcome progress outcome = .ok progress')
    (hname : outcome.name ∈ x.steps.list.map (·.name)) (hdone : outcome.IsCompleted) :
    Folded x progress progress' held
        (heldOutcome x.json x.steps.lastStep.name held outcome) ∧
      (progress'.results.get outcome.name).isSome = true := by
  cases outcome with
  | failed | suspended | continueAsNew => exact hdone.elim
  | completed stepName result metadata startedAt durationMs skipped =>
    obtain ⟨step, hmem, hstep⟩ := mem_map.mp hname
    change step.name = stepName at hstep
    subst hstep
    unfold foldOutcome at hfold
    simp only [byName_of_mem hmem] at hfold
    obtain ⟨decoded, hdecode, hfold⟩ := ok_of_bind hfold
    cases hfold
    refine ⟨⟨?_, ?_, ?_⟩, ?_⟩
    · intro htracked
      have hmark := Follows.markCompleted (nodup_dagNodes x.steps) htracked
        (by rw [dagNodes_names]; exact hname)
      have hsame : (fun name => ((progress.results.set step.name decoded).get name).isSome) =
          fun name => (progress.results.get name).isSome || decide (name = step.name) := by
        funext name
        rw [get_set]
        by_cases heq : step.name = name
        · simp [heq]
        · simp [heq, Ne.symm heq]
      unfold Tracked
      rw [hsame]
      exact hmark
    · intro hlinked v hv
      simp only [heldOutcome]
      rw [get_set] at hv
      by_cases heq : step.name = x.steps.lastStep.name
      · -- The last step itself: it is decoded through its own codec.
        rw [if_pos heq] at hv ⊢
        cases hv
        have hlast : step = x.steps.lastStep :=
          inj_on_of_nodup_map x.steps.names hmem (lastStep_mem x.steps) heq
        exact ⟨_, rfl, by rw [← hlast]; exact hdecode⟩
      · rw [if_neg heq] at hv ⊢
        exact hlinked v hv
    · intro name hsome
      rw [get_set]
      split
      · rfl
      · exact hsome
    · show ((progress.results.set step.name decoded).get step.name).isSome = true
      rw [get_set_self]
      rfl

theorem foldOutcomes_folded (held : Option (HeldResult V))
    (hfold : outcomes.foldlM x.foldOutcome progress = .ok progress')
    (hnames : ∀ outcome ∈ outcomes, outcome.name ∈ x.steps.list.map (·.name))
    (hdone : ∀ outcome ∈ outcomes, outcome.IsCompleted) :
    Folded x progress progress' held
        (outcomes.foldl (heldOutcome x.json x.steps.lastStep.name) held) ∧
      ∀ outcome ∈ outcomes, (progress'.results.get outcome.name).isSome = true := by
  induction outcomes generalizing progress held with
  | nil =>
    cases hfold
    exact ⟨⟨fun h => h, fun h => h, fun _ h => h⟩, nofun⟩
  | cons outcome rest ih =>
    rw [foldlM_cons] at hfold
    obtain ⟨between, hfirst, hrest⟩ := ok_of_bind hfold
    obtain ⟨⟨htracked, hlinked, hgrows⟩, hown⟩ := foldOutcome_folded held hfirst
      (hnames _ mem_cons_self) (hdone _ mem_cons_self)
    obtain ⟨hfolded, hsome⟩ := ih (heldOutcome x.json x.steps.lastStep.name held outcome) hrest
      (fun o ho => hnames o (mem_cons_of_mem _ ho))
      fun o ho => hdone o (mem_cons_of_mem _ ho)
    refine ⟨⟨fun h => hfolded.tracked (htracked h), fun h => hfolded.linked (hlinked h),
      fun name h => hfolded.grows name (hgrows name h)⟩, ?_⟩
    intro o ho
    cases mem_cons.mp ho with
    | inl heq =>
      subst heq
      exact hfolded.grows _ hown
    | inr hmem => exact hsome o hmem

end

/-! ## Counting -/

section

variable {x : DagExecutionContext V} {progress progress' : DagProgress V}

theorem lastResult_of_full (h : Tracked x progress)
    (hfull : progress.tracker.completedCount ≥ x.steps.list.length) :
    ∃ v, progress.results.get x.steps.lastStep.name = some v := by
  have hcount := h.count
  have hlen : x.steps.dagNodes.length = x.steps.list.length := by
    simp [dagNodes]
  have hle := countP_le_length (l := x.steps.dagNodes)
    (p := fun node => (progress.results.get node.name).isSome)
  have hall := countP_eq_length.mp (show x.steps.dagNodes.countP
    (fun node => (progress.results.get node.name).isSome) = _ by omega)
  have hlast : (⟨x.steps.lastStep.name, x.steps.lastStep.dependsOn⟩ : DagNode) ∈
      x.steps.dagNodes := mem_map.mpr ⟨_, lastStep_mem x.steps, rfl⟩
  exact isSome_iff_exists.mp (hall _ hlast)

theorem ready_open (h : Tracked x progress) {name : String}
    (hready : name ∈ progress.tracker.ready) :
    name ∈ x.steps.list.map (·.name) ∧ (progress.results.get name).isSome = false := by
  rw [h.ready_eq, computeReadySet] at hready
  obtain ⟨node, hnode, rfl⟩ := mem_map.mp hready
  obtain ⟨hmem, hok⟩ := mem_filter.mp hnode
  constructor
  · rw [← dagNodes_names]
    exact mem_map_of_mem hmem
  · simp only [Bool.or_false, Bool.and_eq_true, Bool.not_eq_true'] at hok
    exact hok.1

theorem readySteps_names (h : Tracked x progress) :
    (progress.tracker.ready.filterMap x.steps.byName).map (·.name) = progress.tracker.ready := by
  have hall : ∀ names : List String, (∀ name ∈ names, name ∈ x.steps.list.map (·.name)) →
      (names.filterMap x.steps.byName).map (·.name) = names := by
    intro names
    induction names with
    | nil => exact fun _ => rfl
    | cons name rest ih =>
      intro hnames
      obtain ⟨step, hmem, rfl⟩ := mem_map.mp (hnames _ mem_cons_self)
      rw [filterMap_cons, byName_of_mem hmem]
      simp only [map_cons]
      rw [ih fun n hn => hnames n (mem_cons_of_mem _ hn)]
  exact hall _ fun name hname => (ready_open h hname).1

private theorem countP_lt_countP {α : Type} {p q : α → Bool} {l : List α} {a : α}
    (hle : ∀ b ∈ l, p b = true → q b = true) (ha : a ∈ l) (hp : p a = false)
    (hq : q a = true) : l.countP p < l.countP q := by
  induction l with
  | nil => exact nomatch ha
  | cons b l ih =>
    have htail := fun c hc => hle c (mem_cons_of_mem b hc)
    rw [countP_cons, countP_cons]
    cases mem_cons.mp ha with
    | inl heq =>
      subst heq
      have hrest := countP_mono_left htail
      simp only [hp, hq, if_true, Bool.false_eq_true, if_false]
      omega
    | inr hmem =>
      have hrest := ih htail hmem
      have hhead := hle b mem_cons_self
      cases hpb : p b with
      | false =>
        simp only [Bool.false_eq_true, if_false]
        omega
      | true =>
        simp only [hhead hpb, if_true]
        omega

theorem completedCount_lt (h : Tracked x progress) (h' : Tracked x progress')
    (hgrows : ∀ name, (progress.results.get name).isSome = true →
      (progress'.results.get name).isSome = true) {name : String}
    (hready : name ∈ progress.tracker.ready) (hsome : (progress'.results.get name).isSome = true) :
    progress.tracker.completedCount < progress'.tracker.completedCount := by
  obtain ⟨hmem, hopen⟩ := ready_open h hready
  rw [← dagNodes_names] at hmem
  obtain ⟨node, hnode, rfl⟩ := mem_map.mp hmem
  have hlt := countP_lt_countP (fun node _ => hgrows node.name) hnode hopen hsome
  have hcount := h.count
  have hcount' := h'.count
  omega

theorem completedCount_lt_of_wave {outcomes : List (SettledStep V)} (h : Tracked x progress)
    (h' : Tracked x progress') (hgrows : ∀ name, (progress.results.get name).isSome = true →
      (progress'.results.get name).isSome = true) (hready : progress.tracker.ready ≠ [])
    (hnames : outcomes.map (·.name) = progress.tracker.ready)
    (hsome : ∀ outcome ∈ outcomes, (progress'.results.get outcome.name).isSome = true) :
    progress.tracker.completedCount < progress'.tracker.completedCount := by
  obtain ⟨name, hname⟩ := exists_mem_of_ne_nil _ hready
  have hmem := hname
  rw [← hnames] at hmem
  obtain ⟨outcome, houtcome, rfl⟩ := mem_map.mp hmem
  exact completedCount_lt h h' hgrows hname (hsome outcome houtcome)

end

section

variable {x : DagExecutionContext V} {progress : DagProgress V}

def DagEnds (x : DagExecutionContext V) (result : DagExecutionResult V)
    (w : DriverWorld (DriveEvent V)) : Prop :=
  ∃ held, During x.json x.workflowId x.steps.lastStep.name held w ∧
    ∀ v, result = .success v →
      ∃ h, held = some h ∧ x.steps.lastStep.codec.decode h.value = .ok v

theorem DagEnds.stable {result : DagExecutionResult V} :
    Stable (interfere x.workflowId) (DagEnds x result) := by
  rintro moment w ⟨held, hduring, hsuccess⟩
  exact ⟨held, During.stable moment w hduring, hsuccess⟩

theorem assertRunActive_triple {workflowId : String} {P : DriverWorld (DriveEvent V) → Prop}
    (hp : Stable (interfere workflowId) P)
    (observed : Option (Option WorkflowStatusSnapshot)) :
    Triple (fun _ => True) P (assertRunActive workflowId observed) (fun _ => P)
      fun _ _ => True := by
  have hcheck : ∀ status : Option WorkflowStatusSnapshot,
      Triple (fun _ => True) P
        (if status.any (·.isCancelled) then throw (cancelledRunError workflowId)
          else pure () : Drive (DriveEvent V) Unit)
        (fun _ => P) fun _ _ => True := by
    intro status
    split
    · exact throw fun _ _ _ => trivial
    · exact pure fun _ _ h => h
  unfold assertRunActive
  cases observed with
  | some status => exact hcheck status
  | none =>
    apply bind (Q := fun _ => P)
    · exact read_triple (fun _ _ h => h) hp fun _ _ h => h
    · exact hcheck

theorem waves_triple (input : V) (deadlineMs : Option Int) (left wave : Nat)
    (observed : Option (Option WorkflowStatusSnapshot)) (held : Option (HeldResult V))
    (htracked : Tracked x progress) (hlinked : ResultHeld x.steps.lastStep progress.results held) :
    Triple (fun _ => True) (During x.json x.workflowId x.steps.lastStep.name held)
      (x.waves input deadlineMs left wave observed progress)
      (fun result w => DagEnds x result w ∧
        (x.steps.list.length < left + progress.tracker.completedCount → result ≠ .unfinished))
      fun _ _ => True := by
  induction left generalizing wave observed held progress with
  | zero =>
    apply Triple.pure
    intro w _ h
    refine ⟨⟨held, h, nofun⟩, ?_⟩
    intro hroom
    exfalso
    have hcount := htracked.count
    have hle := countP_le_length (l := x.steps.dagNodes)
      (p := fun node => (progress.results.get node.name).isSome)
    have hlen : x.steps.dagNodes.length = x.steps.list.length := by
      simp [dagNodes]
    omega
  | succ left ih =>
    have hstop : ∀ result : DagExecutionResult V, (∀ v, result ≠ .success v) →
        result ≠ .unfinished → Triple (fun _ => True)
          (During x.json x.workflowId x.steps.lastStep.name held)
          (pure result : Drive (DriveEvent V) (DagExecutionResult V))
          (fun result w => DagEnds x result w ∧
            (x.steps.list.length < left + 1 + progress.tracker.completedCount →
              result ≠ .unfinished)) fun _ _ => True :=
      fun result hnot hends => pure fun w _ h =>
        ⟨⟨held, h, fun v hv => absurd hv (hnot v)⟩, fun _ => hends⟩
    unfold waves
    split
    · rename_i hfull
      obtain ⟨v, hv⟩ := lastResult_of_full htracked hfull
      obtain ⟨h, hheld, hdecode⟩ := hlinked v hv
      apply Triple.pure
      intro w _ hw
      refine ⟨⟨held, hw, ?_⟩, nofun⟩
      intro v' hv'
      rw [hv, getD_some] at hv'
      cases hv'
      exact ⟨h, hheld, hdecode⟩
    · apply bind
        (Q := fun _ => During x.json x.workflowId x.steps.lastStep.name held)
      · split
        · exact assertRunActive_triple During.stable observed
        · exact pure fun _ _ h => h
      · intro _
        apply bind
          (Q := fun _ => During x.json x.workflowId x.steps.lastStep.name held)
        · exact clockNow_triple During.stable
        · intro now
          split
          · exact hstop _ nofun nofun
          · split
            · exact hstop _ nofun nofun
            · rename_i hready
              apply bind (settleWave_triple input progress.results _ held)
              intro settled
              cases hfold : settled.outcomes.foldlM x.foldOutcome
                  { progress with tripwireFire := none } with
              | error error => exact throw fun _ _ _ => trivial
              | ok folded =>
                apply of_fact
                intro hnames
                cases hexit : waveExit settled.outcomes
                    folded.tripwireFire with
                | some exit =>
                  obtain ⟨hnot, hends⟩ := waveExit_ends hexit
                  simp only [hexit]
                  exact pure fun w _ hw =>
                    ⟨⟨_, hw, fun v hv => absurd hv (hnot v)⟩, fun _ => hends⟩
                | none =>
                  -- All steps of the wave completed: it moved the count, so there is room.
                  rw [readySteps_names htracked] at hnames
                  obtain ⟨hfolded, hsome⟩ := foldOutcomes_folded held hfold
                    (fun o ho => (ready_open htracked
                      (hnames ▸ mem_map_of_mem ho)).1)
                    (isCompleted_of_waveExit hexit)
                  have hmoved := completedCount_lt_of_wave htracked (hfolded.tracked htracked)
                    hfolded.grows (by simpa using hready) hnames hsome
                  simp only [hexit]
                  apply bind (Q := fun _ =>
                    During x.json x.workflowId x.steps.lastStep.name
                      (settled.outcomes.foldl (heldOutcome x.json x.steps.lastStep.name) held))
                  · exact clockNow_triple During.stable
                  · intro now'
                    split
                    · exact pure fun w _ hw => ⟨⟨_, hw, nofun⟩, nofun⟩
                    · apply (ih (wave + 1) settled.runStatus _ (hfolded.tracked htracked)
                        (hfolded.linked hlinked)).conseq
                      · exact fun _ _ h => h
                      · exact fun _ _ _ h => ⟨h.1, fun hroom => h.2 (by omega)⟩
                      · exact fun _ _ _ h => h

/-- The results are those of declared steps, the last step's one of its completed row. -/
structure Replayed (x : DagExecutionContext V) (steps : JsMap String StepState)
    (results : JsMap String V) : Prop where
  last : ∀ v, results.get x.steps.lastStep.name = some v →
    ∃ row, steps.get x.steps.lastStep.name = some row ∧ row.status = .completed ∧
      x.decodedRow x.steps.lastStep row = .ok v
  declared : ∀ name, (results.get name).isSome = true → name ∈ x.steps.list.map (·.name)

variable {steps : JsMap String StepState} {results : JsMap String V}

theorem Replayed.replayRow {results' : JsMap String V}
    {entry : String × StepState} (h : Replayed x steps results)
    (hrow : steps.get entry.1 = some entry.2) (hok : x.replayRow results entry = .ok results') :
    Replayed x steps results' := by
  unfold DagExecutionContext.replayRow at hok
  split at hok
  · cases hok
    exact h
  · rename_i hdone
    cases hname : x.steps.byName entry.1 with
    | none =>
      rw [hname] at hok
      cases hok
      exact h
    | some step =>
      rw [hname] at hok
      obtain ⟨decoded, hdecode, hok⟩ := ok_of_bind hok
      cases hok
      obtain ⟨hmem, hown⟩ := byName_some hname
      constructor
      · intro v hv
        rw [get_set] at hv
        by_cases heq : entry.1 = x.steps.lastStep.name
        · rw [if_pos heq] at hv
          cases hv
          have hlast : step = x.steps.lastStep :=
            inj_on_of_nodup_map x.steps.names hmem (lastStep_mem x.steps)
              (hown.trans heq)
          exact ⟨entry.2, heq ▸ hrow, not_not.mp hdone, hlast ▸ hdecode⟩
        · rw [if_neg heq] at hv
          exact h.last v hv
      · intro name hsome
        rw [get_set] at hsome
        by_cases heq : entry.1 = name
        · rw [← heq, ← hown]
          exact mem_map_of_mem hmem
        · rw [if_neg heq] at hsome
          exact h.declared name hsome

theorem Replayed.rows {rows : List (String × StepState)}
    {results' : JsMap String V} (h : Replayed x steps results)
    (hrows : ∀ entry ∈ rows, steps.get entry.1 = some entry.2)
    (hok : rows.foldlM x.replayRow results = .ok results') : Replayed x steps results' := by
  induction rows generalizing results with
  | nil =>
    cases hok
    exact h
  | cons entry rest ih =>
    rw [foldlM_cons] at hok
    obtain ⟨between, hfirst, hrest⟩ := ok_of_bind hok
    exact ih (h.replayRow (hrows _ mem_cons_self) hfirst)
      (fun e he => hrows e (mem_cons_of_mem _ he)) hrest

theorem replayed_storedResults
    (h : x.storedResults steps.entries = .ok results) : Replayed x steps results := by
  have hempty : Replayed x steps JsMap.empty :=
    ⟨fun v hv => by simp at hv, fun name hname => by simp at hname⟩
  exact hempty.rows (fun _ he => (mem_entries_iff _ _ _).mp he) h

theorem Replayed.linked (h : Replayed x steps results) :
    ResultHeld x.steps.lastStep results (heldRow x.json x.steps.lastStep.name steps) := by
  intro v hv
  obtain ⟨row, hrow, hdone, hdecode⟩ := h.last v hv
  refine ⟨⟨x.json.loaded (row.result.getD .undefined), row.result.getD .undefined⟩, ?_,
    hdecode⟩
  unfold heldRow
  rw [hrow]
  exact if_pos hdone

/-- **A drive that succeeds answers what it holds of the last step, decoded**, and it never
    runs out of waves. -/
theorem executeWorkflowDag_triple (input : V) (deadlineMs : Option Int)
    (state : Option WorkflowState) :
    Triple (fun _ => True)
      (During x.json x.workflowId x.steps.lastStep.name
        (heldRow x.json x.steps.lastStep.name ((state.map (·.steps)).getD JsMap.empty)))
      (x.executeWorkflowDag input deadlineMs state)
      (fun result w => DagEnds x result w ∧ result ≠ .unfinished) fun _ _ => True := by
  unfold executeWorkflowDag
  have hentries : (state.map (·.steps.entries)).getD [] =
      ((state.map (·.steps)).getD JsMap.empty).entries := by
    cases state <;> rfl
  rw [hentries]
  cases hresults : x.storedResults ((state.map (·.steps)).getD JsMap.empty).entries with
  | error error => exact throw fun _ _ _ => trivial
  | ok results =>
    have hreplayed := replayed_storedResults hresults
    have htracked : Tracked x {
        results := results, tracker := createReadyTracker x.steps.dagNodes results.keys
        tripwireFire := none } := by
      have hfollows : Follows x.steps.dagNodes
          (fun name => results.keys.contains name) _ :=
        follows_create (nodup_dagNodes x.steps)
          fun name hname => by
            rw [dagNodes_names]
            exact hreplayed.declared name ((mem_keys_iff _ _).mp hname)
      have hsame : (fun name => results.keys.contains name) =
          fun name => (results.get name).isSome := by
        funext name
        rw [Bool.eq_iff_iff, contains_iff_mem, mem_keys_iff]
      rw [hsame] at hfollows
      exact hfollows
    apply (waves_triple input deadlineMs _ 0 none _ htracked hreplayed.linked).conseq
    · exact fun _ _ h => h
    · exact fun _ _ _ h => ⟨h.1, h.2 (by omega)⟩
    · exact fun _ _ _ h => h

end

end Promin.Durable

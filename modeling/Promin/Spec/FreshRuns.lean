import Promin.Durable.RunQueries
import Promin.Spec.KeyIsolation
import Promin.Spec.StorageFrame

/-!
# Fresh runs

`startFreshRun` archives the current run of a workflow and starts the next one.
-/

namespace Promin.Durable

open InMemoryWorkflowStorage JsMap Option Machine
open List hiding map mem_map

/-! ## Effective calls -/

/-- The call starts a fresh run of `w`, unless its fence or its expected run is stale. -/
def switchesRun (w : String) (s : InMemoryWorkflowStorage) : StorageOp → Bool
  | .startFreshRun workflowId expectedRun _ g =>
    workflowId == w && decide (s.leases.checkFence s.now w g = .ok ()) &&
      ((s.workflows.get w).map fun wf =>
        expectedRun.isNone || expectedRun == some wf.run).getD false
  | _ => false

def freshRun (s : InMemoryWorkflowStorage) (wf : MutableWorkflow) (nextInput : Option JsValue) :
    MutableWorkflow :=
  { wf with
    run := wf.run + 1
    input := nextInput.getD wf.input
    status := .pending
    result := none
    error := none
    errorTag := none
    tripwire := none
    startedAt := none
    completedAt := none
    steps := JsMap.empty
    updatedAt := s.now }

def archivedRuns (s : InMemoryWorkflowStorage) (w : String) : List WorkflowRunSummary :=
  (s.runHistory.get w).getD []

section

variable {s : InMemoryWorkflowStorage} {w : String} {g : FenceGuard} {wf wf' : MutableWorkflow}

/-- What an effective call does. -/
theorem startFreshRun_of_switches {expectedRun : Option Int} {nextInput : Option JsValue}
    (h : switchesRun w s (.startFreshRun w expectedRun nextInput g) = true) :
    ∃ wf, s.workflows.get w = some wf ∧ (expectedRun = none ∨ expectedRun = some wf.run) ∧
      s.startFreshRun w expectedRun nextInput g =
        ({ s with
            runHistory := s.runHistory.set w (archivedRuns s w ++ [currentRunSummary wf])
            workflows := s.workflows.set w (freshRun s wf nextInput)
            journal := s.journal.deleteWorkflow w
            signals := s.signals.delete w }, .ok (wf.run + 1)) := by
  simp only [switchesRun, beq_self_eq_true, Bool.true_and, Bool.and_eq_true,
    decide_eq_true_eq] at h
  obtain ⟨hfence, hexpected⟩ := h
  cases hget : s.workflows.get w with
  | none =>
    rw [hget] at hexpected
    cases hexpected
  | some wf =>
    rw [hget] at hexpected
    simp only [map_some, getD_some, Bool.or_eq_true, isNone_iff_eq_none,
      beq_iff_eq] at hexpected
    refine ⟨wf, rfl, hexpected, ?_⟩
    have hmatch : ¬ (expectedRun.isSome && expectedRun != some wf.run) = true := by
      cases hexpected with
      | inl hnone => simp [hnone]
      | inr hsome => simp [hsome]
    simp only [startFreshRun, fenced, hfence, hget, hmatch, Bool.false_eq_true, ↓reduceIte]
    rfl

theorem startFreshRun_of_not {expectedRun : Option Int} {nextInput : Option JsValue}
    (h : switchesRun w s (.startFreshRun w expectedRun nextInput g) = false) :
    (s.startFreshRun w expectedRun nextInput g).1 = s := by
  unfold startFreshRun
  rcases fenced_cases s w g _ with ⟨e, -, hrej⟩ | ⟨hok, hacc⟩
  · rw [hrej]
  · rw [hacc]
    have hfence : s.leases.checkFence s.now w g = .ok () := hok
    simp only [switchesRun, beq_self_eq_true, hfence, decide_true, Bool.true_and] at h
    cases hget : s.workflows.get w with
    | none => rfl
    | some wf =>
      rw [hget] at h
      simp only [map_some, getD_some, Bool.or_eq_false_iff] at h
      obtain ⟨hsome, hne⟩ := h
      have hstale : (expectedRun.isSome && expectedRun != some wf.run) = true := by
        cases expectedRun with
        | none => exact nomatch hsome
        | some run => simpa using hne
      simp only [hstale, ↓reduceIte]

/-! ## What a call does to the row and the archive of a workflow -/

/-- Every step row belongs to the current run. -/
def StepsOfRun (wf : MutableWorkflow) : Prop :=
  ∀ name step, wf.steps.get name = some step → step.run = wf.run

/-- The row is of the same run. -/
structure Carried (wf wf' : MutableWorkflow) : Prop where
  run : wf'.run = wf.run
  steps : StepsOfRun wf → StepsOfRun wf'

theorem Carried.refl (wf : MutableWorkflow) : Carried wf wf := ⟨rfl, id⟩

theorem Carried.trans {wf'' : MutableWorkflow} (h : Carried wf wf')
    (h' : Carried wf' wf'') : Carried wf wf'' :=
  ⟨h'.run.trans h.run, fun hsteps => h'.steps (h.steps hsteps)⟩

theorem Carried.setStep {name : String} {step : StepState}
    (hrun : wf'.run = wf.run) (hsteps : wf'.steps = wf.steps.set name step)
    (hstep : StepsOfRun wf → step.run = wf.run) : Carried wf wf' := by
  refine ⟨hrun, fun hall name' step' hget => ?_⟩
  rw [hsteps, get_set] at hget
  rw [hrun]
  split at hget
  · cases hget
    exact hstep hall
  · exact hall name' step' hget

theorem markRunning_run (t : InMemoryWorkflowStorage) (wf : MutableWorkflow) :
    (t.markRunning wf).run = wf.run ∧ (t.markRunning wf).steps = wf.steps := by
  unfold markRunning
  split <;> exact ⟨rfl, rfl⟩

theorem carried_settled {t : InMemoryWorkflowStorage} {step : StepState}
    (hstep : step.run = (t.markRunning wf).run) :
    Carried wf (t.putStep (t.markRunning wf) step) := by
  obtain ⟨hrun, hsteps⟩ := markRunning_run t wf
  have hset : (t.putStep (t.markRunning wf) step).steps = wf.steps.set step.stepName step := by
    show (t.markRunning wf).steps.set _ _ = _
    rw [hsteps]
  exact .setStep hrun hset fun _ => hstep.trans hrun

theorem RowWrite.carried (h : RowWrite wf wf') : Carried wf wf' := by
  cases h with
  | completed t wf r | failed t wf r => exact carried_settled rfl
  | task t wf stepName taskIndex outcome =>
    refine .setStep rfl rfl fun hall => ?_
    -- a new step row is of the current run, an old one stays
    cases hold : wf.steps.get stepName with
    | none => rfl
    | some step => exact hall stepName step hold
  | ended hidentity hrun hsteps =>
    refine ⟨hrun, fun hall name step hget => ?_⟩
    rw [hsteps] at hget
    rw [hrun]
    exact hall name step hget
  | suspended t wf stepName u => exact .setStep rfl rfl fun _ => rfl
  | metadata wf patch at_ | compensating wf error errorTag at_ => exact ⟨rfl, id⟩
  | compensated wf hstep status error at_ =>
    have hset := fun hall : StepsOfRun wf => hall _ _ hstep
    exact .setStep rfl rfl hset

theorem carried_of_writes (h : Relation.ReflTransGen RowWrite wf wf') : Carried wf wf' := by
  induction h with
  | refl => exact .refl wf
  | tail _ hwrite ih => exact ih.trans hwrite.carried

theorem carried_resetSteps {stepNames : List String} (hrun : wf'.run = wf.run)
    (hsteps : wf'.steps = (stepNames.foldl (fun m stepName => m.delete stepName)
      wf.steps).mapValues fun _ step =>
        if step.compensationStatus.isSome then withoutCompensationLedger step else step) :
    Carried wf wf' := by
  refine ⟨hrun, fun hall name step hget => ?_⟩
  rw [hsteps, get_mapValues, get_foldl_delete] at hget
  rw [hrun]
  obtain ⟨old, hold, rfl⟩ := map_eq_some_iff.mp hget
  split at hold
  · cases hold
  · have hold' := hall name old hold
    split
    · exact hold'
    · exact hold'

/-- What one call does to the row of `w` and to its archive. -/
inductive HistoryStep (w : String) (s s' : InMemoryWorkflowStorage) (o : StorageOp) : Prop where
  | kept (hno : switchesRun w s o = false)
      (hrow : Option.Rel Carried (s.workflows.get w) (s'.workflows.get w))
      (harchive : s'.runHistory.get w = s.runHistory.get w) : HistoryStep w s s' o
  | created {wf : MutableWorkflow} (hno : switchesRun w s o = false)
      (hnone : s.workflows.get w = none) (hrow : s'.workflows.get w = some wf) (hrun : wf.run = 1)
      (hsteps : wf.steps = JsMap.empty) (harchive : s'.runHistory.get w = s.runHistory.get w) :
      HistoryStep w s s' o
  | switched {wf : MutableWorkflow} {nextInput : Option JsValue}
      (hyes : switchesRun w s o = true) (hget : s.workflows.get w = some wf)
      (hrow : s'.workflows.get w = some (freshRun s wf nextInput))
      (harchive : s'.runHistory.get w = some (archivedRuns s w ++ [currentRunSummary wf])) :
      HistoryStep w s s' o
  | purged (hno : switchesRun w s o = false) (hrow : s'.workflows.get w = none)
      (harchive : s'.runHistory.get w = none) : HistoryStep w s s' o

private theorem rel_mono {R R' : MutableWorkflow → MutableWorkflow → Prop}
    (h : ∀ wf wf', R wf wf' → R' wf wf') {row row' : Option MutableWorkflow}
    (hrel : Option.Rel R row row') : Option.Rel R' row row' := by
  cases hrel with
  | none => exact .none
  | some hwf => exact .some (h _ _ hwf)

private theorem rel_carried_refl (row : Option MutableWorkflow) :
    Option.Rel Carried row row := by
  cases row with
  | none => exact .none
  | some wf => exact .some (.refl wf)

variable {o : StorageOp}

section

variable (hno : switchesRun w s o = false)
include hno

private theorem kept_of_eq {s' : InMemoryWorkflowStorage}
    (hrows : s'.workflows.get w = s.workflows.get w)
    (harchive : s'.runHistory.get w = s.runHistory.get w) : HistoryStep w s s' o :=
  .kept hno (hrows ▸ rel_carried_refl _) harchive

private theorem fenced_history {α : Type} {workflowId : String}
    {body : InMemoryWorkflowStorage × Except StorageError α}
    (hrows : body.1.workflows = s.workflows) (harchive : body.1.runHistory = s.runHistory) :
    HistoryStep w s (s.fenced workflowId g body).1 o := by
  refine fenced_state (P := fun t => HistoryStep w s t o) (kept_of_eq hno rfl rfl) ?_
  exact kept_of_eq hno (by rw [hrows]) (by rw [harchive])

private theorem createRun_history
    (p : CreateWorkflowParams) : HistoryStep w s (s.createRun p).1 o := by
  unfold createRun
  simp only
  split
  · exact kept_of_eq hno rfl rfl
  · rename_i hfree
    by_cases hw : p.workflowId = w
    · subst hw
      have hnone : s.workflows.get p.workflowId = none := by
        cases hget : s.workflows.get p.workflowId with
        | none => rfl
        | some wf =>
          rw [hget] at hfree
          simp at hfree
      exact .created hno hnone (get_set_self _ _ _) rfl rfl rfl
    · exact kept_of_eq hno (get_set_ne _ _ hw) rfl

end

/-- **What one call does to the run of a workflow.** -/
theorem step_history (s : InMemoryWorkflowStorage) (o : StorageOp) (w : String) :
    HistoryStep w s (storage.next s o) o := by
  by_cases hwrites : WritesRows o
  · have hno : switchesRun w s o = false := by
      cases o with
      | startFreshRun => exact hwrites.elim
      | _ => rfl
    obtain ⟨hrest, hrows⟩ := step_rowWrites s hwrites
    have harchive := congrArg InMemoryWorkflowStorage.runHistory hrest
    exact .kept hno (rel_mono (fun _ _ => carried_of_writes) (hrows w)) (by rw [harchive])
  cases o with
  | createWorkflow p g =>
    show HistoryStep w s (s.createWorkflow p g).1 _
    have hrun := createRun_history (w := w) (s := s) (o := .createWorkflow p g) rfl p
    have hsame : HistoryStep w s s (.createWorkflow p g) := kept_of_eq rfl rfl rfl
    unfold createWorkflow
    simp only
    split
    · split
      · exact hsame
      · exact fenced_state (P := fun t => HistoryStep w s t (.createWorkflow p g)) hsame hrun
    · exact hrun
  | startFreshRun workflowId expectedRun nextInput g =>
    show HistoryStep w s (s.startFreshRun workflowId expectedRun nextInput g).1 _
    by_cases hw : workflowId = w
    · subst hw
      cases hyes : switchesRun workflowId s (.startFreshRun workflowId expectedRun nextInput g) with
      | false =>
        rw [startFreshRun_of_not hyes]
        exact kept_of_eq hyes rfl rfl
      | true =>
        obtain ⟨wf, hget, -, hstep⟩ := startFreshRun_of_switches hyes
        rw [hstep]
        exact .switched hyes hget (get_set_self _ _ _) (get_set_self _ _ _)
    · -- another workflow is switched
      have hno : switchesRun w s (.startFreshRun workflowId expectedRun nextInput g) = false := by
        simp [switchesRun, hw]
      cases hother : switchesRun workflowId s
          (.startFreshRun workflowId expectedRun nextInput g) with
      | false =>
        rw [startFreshRun_of_not hother]
        exact kept_of_eq hno rfl rfl
      | true =>
        obtain ⟨wf, hget, -, hstep⟩ := startFreshRun_of_switches hother
        rw [hstep]
        exact kept_of_eq hno (get_set_ne _ _ hw) (get_set_ne _ _ hw)
  | resetSteps workflowId stepNames =>
    show HistoryStep w s (s.resetSteps workflowId stepNames).1 _
    unfold resetSteps
    cases hget : s.workflows.get workflowId with
    | none => exact kept_of_eq rfl rfl rfl
    | some wf =>
      simp only
      split
      · exact kept_of_eq rfl rfl rfl
      · by_cases hw : workflowId = w
        · subst hw
          refine .kept rfl ?_ rfl
          simp only [get_set_self, hget]
          apply Option.Rel.some
          split <;> exact carried_resetSteps rfl rfl
        · exact kept_of_eq rfl (get_set_ne _ _ hw) rfl
  | purgeCompleted window limit =>
    have hpurge : (storage.next s (.purgeCompleted window limit)).workflows.get w =
          s.workflows.get w ∧ (storage.next s (.purgeCompleted window limit)).runHistory.get w =
          s.runHistory.get w ∨
        (storage.next s (.purgeCompleted window limit)).workflows.get w = none ∧
          (storage.next s (.purgeCompleted window limit)).runHistory.get w = none := by
      refine purge_state (P := fun t => t.workflows.get w = s.workflows.get w ∧
        t.runHistory.get w = s.runHistory.get w ∨
        t.workflows.get w = none ∧ t.runHistory.get w = none) window limit ?_ (.inl ⟨rfl, rfl⟩)
      intro t id wf ht _ _
      have hrows : (t.deleteRun id wf).workflows.get w = (t.workflows.delete id).get w := rfl
      have harchive : (t.deleteRun id wf).runHistory.get w = (t.runHistory.delete id).get w := rfl
      rw [hrows, harchive]
      by_cases hid : id = w
      · subst hid
        exact .inr ⟨get_delete_self _ _, get_delete_self _ _⟩
      · rw [get_delete_ne _ hid, get_delete_ne _ hid]
        exact ht
    cases hpurge with
    | inl hsame => exact kept_of_eq rfl hsame.1 hsame.2
    | inr hgone => exact .purged rfl hgone.1 hgone.2
  | completeSignalToken tokenId value now =>
    show HistoryStep w s (s.completeSignalToken tokenId value now).1 _
    unfold completeSignalToken
    simp only
    split
    · exact kept_of_eq rfl rfl rfl
    · split <;> exact kept_of_eq rfl rfl rfl
  | appendStreamChunk p g =>
    show HistoryStep w s (s.appendStreamChunk p g).1 _
    exact fenced_history rfl rfl rfl
  | appendEntry a name hash exit g =>
    show HistoryStep w s (s.appendEntry a name hash exit g).1 _
    exact fenced_history rfl rfl rfl
  | appendPendingEntry a name hash type wakeAt g =>
    show HistoryStep w s (s.appendPendingEntry a name hash type wakeAt g).1 _
    exact fenced_history rfl rfl rfl
  | completePendingEntry a exit g =>
    show HistoryStep w s (s.completePendingEntry a exit g).1 _
    exact fenced_history rfl rfl rfl
  | discardJournalEntries workflowId stepName slots g =>
    show HistoryStep w s (s.discardJournalEntries workflowId stepName slots g).1 _
    exact fenced_history rfl rfl rfl
  | _ => first | exact absurd trivial hwrites | exact kept_of_eq rfl rfl rfl

/-! ## The archive -/

/-- The archive holds the runs from the first to the one before `wf`, oldest first, and the
    step rows of `wf` are of its run. -/
structure Numbered (wf : MutableWorkflow) (archived : List WorkflowRunSummary) : Prop where
  numbers : archived.map (·.run) = (List.range archived.length).map fun i : Nat => (i : Int) + 1
  current : wf.run = archived.length + 1
  steps : StepsOfRun wf

def History (s : InMemoryWorkflowStorage) (w : String) : Prop :=
  (s.workflows.get w = none → s.runHistory.get w = none) ∧
    ∀ wf, s.workflows.get w = some wf → Numbered wf (archivedRuns s w)

namespace Numbered

variable {wf wf' : MutableWorkflow} {archived : List WorkflowRunSummary}

theorem first (hrun : wf.run = 1) (hsteps : wf.steps = JsMap.empty) : Numbered wf [] where
  numbers := rfl
  current := hrun
  steps := by
    intro name step hstep
    rw [hsteps] at hstep
    exact nomatch hstep

theorem carried (h : Numbered wf archived) (hcarried : Carried wf wf') : Numbered wf' archived where
  numbers := h.numbers
  current := hcarried.run.trans h.current
  steps := hcarried.steps h.steps

theorem runs_snoc (h : Numbered wf archived) :
    (archived ++ [currentRunSummary wf]).map (·.run) =
      (List.range (archived.length + 1)).map fun i : Nat => (i : Int) + 1 := by
  rw [map_append, h.numbers, range_succ, map_append]
  show _ ++ [wf.run] = _
  rw [h.current]
  rfl

theorem next (h : Numbered wf archived) (s : InMemoryWorkflowStorage) (nextInput : Option JsValue) :
    Numbered (freshRun s wf nextInput) (archived ++ [currentRunSummary wf]) where
  numbers := by
    rw [h.runs_snoc, length_append, length_singleton]
  current := by
    rw [length_append, length_singleton]
    show wf.run + 1 = _
    rw [h.current]
    rfl
  steps := fun _ _ hstep => nomatch hstep

end Numbered

theorem history_new (config : StorageConfig) (w : String) : History (.new config) w :=
  ⟨fun _ => rfl, fun _ h => nomatch h⟩

/-- Every call keeps the archive. -/
theorem History.step (h : History s w) (o : StorageOp) : History (storage.next s o) w := by
  cases step_history s o w with
  | kept hno hrow harchive =>
    have hruns : archivedRuns (storage.next s o) w = archivedRuns s w := by
      rw [archivedRuns, harchive, archivedRuns]
    generalize hrow' : (storage.next s o).workflows.get w = row' at hrow
    generalize hrow₀ : s.workflows.get w = row at hrow
    unfold History
    rw [hrow', hruns]
    cases hrow with
    | none => exact ⟨fun _ => harchive.trans (h.1 hrow₀), fun _ hget => nomatch hget⟩
    | some hcarried =>
      refine ⟨fun hnone => (nomatch hnone), fun wf' hget => ?_⟩
      cases hget
      exact (h.2 _ hrow₀).carried hcarried
  | created hno hnone hrow hrun hsteps harchive =>
    have hempty : archivedRuns (storage.next s o) w = [] := by
      rw [archivedRuns, harchive, h.1 hnone]
      rfl
    unfold History
    rw [hrow, hempty]
    refine ⟨fun hgone => (nomatch hgone), fun wf' hget => ?_⟩
    cases hget
    exact .first hrun hsteps
  | @switched wf nextInput hyes hget hrow harchive =>
    have hruns : archivedRuns (storage.next s o) w =
        archivedRuns s w ++ [currentRunSummary wf] := by
      rw [archivedRuns, harchive]
      rfl
    unfold History
    rw [hrow, hruns]
    refine ⟨fun hgone => (nomatch hgone), fun wf' hget' => ?_⟩
    cases hget'
    exact (h.2 wf hget).next s nextInput
  | purged hno hrow harchive =>
    unfold History
    rw [hrow]
    exact ⟨fun _ => harchive, fun _ hget => nomatch hget⟩

instance : Std.Total laterFirst := ⟨fun a b => by unfold laterFirst; omega⟩

instance : IsTrans WorkflowRunSummary laterFirst :=
  ⟨fun a b c hab hbc => by unfold laterFirst at *; omega⟩

theorem loadRunHistory_eq (hget : s.workflows.get w = some wf)
    (h : Numbered wf (archivedRuns s w)) : s.loadRunHistory w none none =
      currentRunSummary wf :: (archivedRuns s w).reverse := by
  have hruns := h.runs_snoc
  unfold loadRunHistory
  rw [hget]
  simp only [getD_none, drop_zero, take_length]
  show (currentRunSummary wf :: archivedRuns s w).insertionSort laterFirst = _
  generalize archivedRuns s w = archived at hruns
  -- the run numbers go up along the archive, so they go down along its reverse
  have hup : (archived ++ [currentRunSummary wf]).Pairwise fun a b => a.run < b.run := by
    have hnumbers : ((archived ++ [currentRunSummary wf]).map (·.run)).Pairwise (· < ·) := by
      rw [hruns, pairwise_map]
      exact pairwise_lt_range.imp fun hlt => by omega
    exact pairwise_map.mp hnumbers
  have hdown : (currentRunSummary wf :: archived.reverse).Pairwise fun a b => b.run < a.run := by
    simpa using pairwise_reverse.mpr hup
  have hperm : ((currentRunSummary wf :: archived).insertionSort laterFirst).Perm
      (currentRunSummary wf :: archived.reverse) :=
    (perm_insertionSort _ _).trans (archived.reverse_perm.symm.cons _)
  refine hperm.eq_of_pairwise ?_ (pairwise_insertionSort laterFirst _)
    (hdown.imp fun hlt => ?_)
  · intro a b ha hb hab hba
    have hnodup : ((currentRunSummary wf :: archived.reverse).map (·.run)).Nodup :=
      pairwise_map.mpr (hdown.imp fun hlt => Int.ne_of_gt hlt)
    refine inj_on_of_nodup_map hnodup (hperm.mem_iff.mp ha) hb ?_
    unfold laterFirst at hab hba
    omega
  · unfold laterFirst
    omega

/-! ## The journal of a workflow -/

/-- The workflow and step a call appends for. -/
def appendedPair : StorageOp → Option (String × String)
  | .appendEntry a _ _ _ _ => some (a.workflowId, a.stepName)
  | .appendPendingEntry a _ _ _ _ _ => some (a.workflowId, a.stepName)
  | _ => none

/-- No other workflow appends under a journal key of `w`. -/
def KeysOwn (w : String) (appended : Option (String × String)) : Prop :=
  ∀ w' stepName', appended = some (w', stepName') →
    ∀ stepName, journalKey w' stepName' = journalKey w stepName → w' = w

def Listed (w : String) (j : InMemoryJournal) : Prop :=
  ∀ stepName, (j.journal.get (journalKey w stepName)).isSome = true →
    journalKey w stepName ∈ j.keysOf w

theorem step_listed {j : InMemoryJournal} {o : JournalOp} (hown : KeysOwn w o.appended)
    (h : Listed w j) : Listed w (Durable.journal.next j o) := by
  intro stepName hsome
  cases hpair : o.pair with
  | some p =>
    obtain ⟨w', stepName'⟩ := p
    have hwrite := step_pairWrite (j := j) hpair
    by_cases hkey : journalKey w stepName = journalKey w' stepName'
    · cases happended : o.appended with
      | none =>
        -- only an append makes a journal
        cases hget : j.journal.get (journalKey w' stepName') with
        | none =>
          rw [(step_absent hpair happended hget).1, hkey, hget] at hsome
          cases hsome
        | some slots =>
          exact hwrite.keysKept _ _ (h stepName (by rw [hkey, hget]; rfl))
      | some q =>
        have hsame : o.appended = o.pair := JournalOp.appended_eq_pair (by simp [happended])
        have hw : w' = w := hown w' stepName' (hsame.trans hpair) stepName hkey.symm
        subst hw
        rw [hkey] at hsome ⊢
        cases hwrite.listed hsome with
        | inl hold => exact hwrite.keysKept _ _ (hkey ▸ h stepName (hkey ▸ hold))
        | inr hlisted => exact hlisted
    · rw [hwrite.elsewhere _ hkey] at hsome
      exact hwrite.keysKept _ _ (h stepName hsome)
  | none =>
    cases o with
    | findDueSleeps now limit => exact h stepName hsome
    | deleteWorkflow w' =>
      have hleft :
          ((j.deleteWorkflow w').journal.get (journalKey w stepName)).isSome = true := hsome
      show _ ∈ (j.deleteWorkflow w').keysOf w
      rw [get_deleteWorkflow] at hleft
      rw [keysOf_deleteWorkflow]
      split at hleft
      · cases hleft
      · rename_i hkept
        have hlisted := h stepName hleft
        rw [if_neg]
        · exact hlisted
        · rintro rfl
          exact hkept hlisted
    | _ => cases hpair

theorem Listed.deleteWorkflow {j : InMemoryJournal} (h : Listed w j) (stepName : String) :
    (j.deleteWorkflow w).entriesOf w stepName = [] := by
  have hgone : (j.deleteWorkflow w).journalOf w stepName = none := by
    show (j.deleteWorkflow w).journal.get (journalKey w stepName) = none
    rw [get_deleteWorkflow]
    cases hget : j.journal.get (journalKey w stepName) with
    | none => rw [ite_self]
    | some slots => rw [if_pos (h stepName (by rw [hget]; rfl))]
  simp [InMemoryJournal.entriesOf, InMemoryJournal.load, hgone]

private theorem run_deleteSteps (w : String) (stepNames : List String) (j : InMemoryJournal) :
    Durable.journal.run j (stepNames.map fun stepName => .deleteStep w stepName) =
      stepNames.foldl (fun j stepName => j.deleteStep w stepName) j := by
  induction stepNames generalizing j with
  | nil => rfl
  | cons stepName rest ih => exact ih _

theorem step_journalOps (s : InMemoryWorkflowStorage) (o : StorageOp) :
    ∃ ops : List JournalOp, (storage.next s o).journal = Durable.journal.run s.journal ops ∧
      ∀ op ∈ ops, op.appended = none ∨ op.appended = appendedPair o := by
  have hnone : ∃ ops : List JournalOp, s.journal = Durable.journal.run s.journal ops ∧
      ∀ op ∈ ops, op.appended = none ∨ op.appended = appendedPair o :=
    ⟨[], rfl, fun _ hop => absurd hop not_mem_nil⟩
  -- one call behind a fence
  have hfenced : ∀ {α : Type} {w : String} {g : FenceGuard}
      {body : InMemoryWorkflowStorage × Except StorageError α} (op : JournalOp),
      body.1.journal = Durable.journal.next s.journal op →
      (op.appended = none ∨ op.appended = appendedPair o) →
      ∃ ops : List JournalOp, (s.fenced w g body).1.journal = Durable.journal.run s.journal ops ∧
        ∀ op ∈ ops, op.appended = none ∨ op.appended = appendedPair o := by
    intro α w g body op hbody hop
    refine fenced_state (P := fun t => ∃ ops : List JournalOp,
      t.journal = Durable.journal.run s.journal ops ∧
        ∀ op ∈ ops, op.appended = none ∨ op.appended = appendedPair o) hnone ?_
    refine ⟨[op], hbody, fun op' hop' => ?_⟩
    rw [mem_singleton.mp hop']
    exact hop
  by_cases hrow : RowCall o
  · rw [rowCall_journal hrow]
    exact hnone
  cases o with
  | startFreshRun workflowId expectedRun nextInput g =>
    show ∃ ops : List JournalOp,
      (s.startFreshRun workflowId expectedRun nextInput g).1.journal = _ ∧ _
    cases hyes : switchesRun workflowId s
        (.startFreshRun workflowId expectedRun nextInput g) with
    | false =>
      rw [startFreshRun_of_not hyes]
      exact hnone
    | true =>
      obtain ⟨wf, -, -, hstep⟩ := startFreshRun_of_switches hyes
      rw [hstep]
      exact ⟨[.deleteWorkflow workflowId], rfl, fun op hop =>
        .inl (by rw [mem_singleton.mp hop]; rfl)⟩
  | resetSteps workflowId stepNames =>
    show ∃ ops : List JournalOp, (s.resetSteps workflowId stepNames).1.journal = _ ∧ _
    unfold resetSteps
    split
    · exact hnone
    · split
      · exact hnone
      · refine ⟨stepNames.map fun stepName => .deleteStep workflowId stepName, ?_, ?_⟩
        · exact (run_deleteSteps workflowId stepNames s.journal).symm
        · intro op hop
          obtain ⟨stepName, -, rfl⟩ := List.mem_map.mp hop
          exact .inl rfl
  | purgeCompleted window limit =>
    refine purge_state (P := fun t => ∃ ops : List JournalOp,
      t.journal = Durable.journal.run s.journal ops ∧
        ∀ op ∈ ops, op.appended = none ∨ op.appended = appendedPair (.purgeCompleted window limit))
      window limit ?_ hnone
    rintro t id wf ⟨ops, hops, happended⟩ - -
    refine ⟨ops ++ [.deleteWorkflow id], ?_, fun op hop => ?_⟩
    · rw [run_snoc, ← hops]
      rfl
    · cases mem_append.mp hop with
      | inl hold => exact happended op hold
      | inr hnew =>
        rw [mem_singleton.mp hnew]
        exact .inl rfl
  | loadJournal workflowId stepName =>
    exact ⟨[.load workflowId stepName], rfl, fun op hop =>
      .inl (by rw [mem_singleton.mp hop]; rfl)⟩
  | findDueSleeps now limit =>
    exact ⟨[.findDueSleeps now limit], rfl, fun op hop =>
      .inl (by rw [mem_singleton.mp hop]; rfl)⟩
  | appendEntry a name hash exit g => exact hfenced (.append s.now a name hash exit) rfl (.inr rfl)
  | appendPendingEntry a name hash type wakeAt g =>
    exact hfenced (.appendPending s.now a name hash type wakeAt) rfl (.inr rfl)
  | completePendingEntry a exit g => exact hfenced (.completePending a exit) rfl (.inl rfl)
  | discardJournalEntries workflowId stepName slots g =>
    exact hfenced (.discard workflowId stepName slots) rfl (.inl rfl)
  | _ => first | exact absurd trivial hrow | exact hnone

theorem listed_new : Listed w .new := fun _ hsome => nomatch hsome

theorem listed_of_run (config : StorageConfig) {ops : List StorageOp}
    (hown : ∀ o ∈ ops, KeysOwn w (appendedPair o)) :
    Listed w (storage.run (.new config) ops).journal := by
  refine run_induction_always (C := fun _ o => KeysOwn w (appendedPair o))
    (P := fun s : InMemoryWorkflowStorage => Listed w s.journal) (fun s o ho hs => ?_)
    (always_of_mem hown _) listed_new
  obtain ⟨jops, hjournal, happended⟩ := step_journalOps s o
  show Listed w (storage.next s o).journal
  rw [hjournal]
  refine run_induction_always (C := fun _ op => KeysOwn w op.appended)
    (fun j op hop hj => step_listed hop hj) (always_of_mem (fun op hop => ?_) _) hs
  cases happended op hop with
  | inl hnone =>
    rw [hnone]
    exact fun _ _ h => nomatch h
  | inr hsame =>
    rw [hsame]
    exact ho

/-! ## Runs of the storage -/

def Stays (w : String) (s : InMemoryWorkflowStorage) (o : StorageOp) : Prop :=
  ((storage.next s o).workflows.get w).isSome = true

theorem step_counter (hget : s.workflows.get w = some wf) (hstays : Stays w s o) :
    ∃ wf', (storage.next s o).workflows.get w = some wf' ∧
      wf'.run = wf.run + (if switchesRun w s o then 1 else 0) ∧
      archivedRuns (storage.next s o) w =
        archivedRuns s w ++ if switchesRun w s o then [currentRunSummary wf] else [] := by
  cases step_history s o w with
  | kept hno hrow harchive =>
    rw [hget] at hrow
    generalize hrow' : (storage.next s o).workflows.get w = row' at hrow
    cases hrow with
    | @some _ wf' hcarried =>
      refine ⟨wf', rfl, ?_, ?_⟩
      · rw [hno, hcarried.run]
        exact (add_zero _).symm
      · rw [hno, archivedRuns, harchive]
        exact (append_nil _).symm
  | created hno hnone hrow hrun hsteps harchive => exact nomatch hget.symm.trans hnone
  | @switched wf₀ nextInput hyes hget₀ hrow harchive =>
    obtain rfl := Option.some.inj (hget.symm.trans hget₀)
    refine ⟨_, hrow, ?_, ?_⟩
    · rw [hyes]
      rfl
    · rw [hyes, archivedRuns, harchive]
      rfl
  | purged hno hrow harchive =>
    unfold Stays at hstays
    rw [hrow] at hstays
    exact nomatch hstays

theorem counter_of_run (hget : s.workflows.get w = some wf)
    (later : List StorageOp) (hstays : storage.Always (Stays w) s later) :
    ∃ wf', (storage.run s later).workflows.get w = some wf' ∧
      wf'.run = wf.run + storage.count (switchesRun w) s later ∧
      archivedRuns s w <+: archivedRuns (storage.run s later) w := by
  induction later generalizing s wf with
  | nil => exact ⟨wf, hget, (add_zero _).symm, prefix_refl _⟩
  | cons o later ih =>
    obtain ⟨wf₁, hget₁, hrun₁, harchive₁⟩ := step_counter hget hstays.1
    obtain ⟨wf', hget', hrun', harchive'⟩ := ih hget₁ hstays.2
    refine ⟨wf', hget', ?_, ?_⟩
    · rw [hrun', hrun₁, Machine.count]
      split <;> simp only [Nat.cast_add, Nat.cast_one, Nat.cast_zero] <;> omega
    · rw [harchive₁] at harchive'
      exact (prefix_append _ _).trans harchive'

/-- The counter grows by one for each effective call, and no earlier run leaves the history. -/
def CountsSwitches (w : String) (s : InMemoryWorkflowStorage) (wf : MutableWorkflow) : Prop :=
  ∀ later, storage.Always (Stays w) s later →
    ∃ wf', (storage.run s later).workflows.get w = some wf' ∧
      wf'.run = wf.run + storage.count (switchesRun w) s later ∧
      ∀ r ∈ s.loadRunHistory w none none, r.run < wf.run →
        r ∈ (storage.run s later).loadRunHistory w none none

/-- A call that expects another run than `run` changes nothing. -/
def Superseded (w : String) (s : InMemoryWorkflowStorage) (run : Int) : Prop :=
  ∀ expectedRun nextInput g, expectedRun ≠ run →
    storage.next s (.startFreshRun w (some expectedRun) nextInput g) = s

/-- The history shows every run up to the current one, once. -/
structure HistoryComplete (w : String) (s : InMemoryWorkflowStorage) (wf : MutableWorkflow) :
    Prop where
  nodup : ((s.loadRunHistory w none none).map (·.run)).Nodup
  all : ∀ k, k ∈ (s.loadRunHistory w none none).map (·.run) ↔ 1 ≤ k ∧ k ≤ wf.run

/-- After the call the next run is current, empty, and the run before is in the history. -/
structure Switched (w : String) (wf : MutableWorkflow) (s' : InMemoryWorkflowStorage) : Prop where
  row : ∃ wf', s'.workflows.get w = some wf' ∧ wf'.run = wf.run + 1 ∧ wf'.steps = JsMap.empty
  signals : s'.loadSignals w = []
  archived : currentRunSummary wf ∈ s'.loadRunHistory w none none
  /-- A retry, also a late one, is ignored. -/
  retried : ∀ later, storage.Always (Stays w) s' later → ∀ nextInput g,
    storage.next (storage.run s' later) (.startFreshRun w (some wf.run) nextInput g) =
      storage.run s' later

section

variable (hget : s.workflows.get w = some wf)
include hget

theorem superseded :
    Superseded w s wf.run := by
  intro expectedRun nextInput g hne
  show (s.startFreshRun w (some expectedRun) nextInput g).1 = s
  apply startFreshRun_of_not
  simp [switchesRun, hget, hne]

theorem countsSwitches (h : History s w) : CountsSwitches w s wf := by
  intro later hstays
  obtain ⟨wf', hget', hrun, harchive⟩ := counter_of_run hget later hstays
  refine ⟨wf', hget', hrun, fun r hr hlt => ?_⟩
  have hlater : History (storage.run s later) w :=
    run_induction (P := fun s => History s w) (fun _ o hs => hs.step o) later h
  rw [loadRunHistory_eq hget' (hlater.2 wf' hget')]
  rw [loadRunHistory_eq hget (h.2 wf hget)] at hr
  cases mem_cons.mp hr with
  | inl hcurrent =>
    rw [hcurrent] at hlt
    exact absurd hlt (Int.lt_irrefl _)
  | inr hold =>
    have hmem := harchive.subset (mem_reverse.mp hold)
    exact mem_cons_of_mem _ (mem_reverse.mpr hmem)

theorem historyComplete (h : History s w) : HistoryComplete w s wf := by
  have hnumbered := h.2 wf hget
  have hruns : (s.loadRunHistory w none none).map (·.run) =
      ((List.range ((archivedRuns s w).length + 1)).map fun i : Nat => (i : Int) + 1).reverse := by
    rw [← hnumbered.runs_snoc, loadRunHistory_eq hget hnumbered, ← map_reverse,
      reverse_append]
    rfl
  constructor
  · rw [hruns, nodup_reverse]
    exact nodup_range.map fun i j hij => by
      have hint : (i : Int) + 1 = j + 1 := hij
      omega
  · intro k
    rw [hruns, mem_reverse, List.mem_map, hnumbered.current]
    constructor
    · rintro ⟨i, hi, rfl⟩
      have hlt := mem_range.mp hi
      omega
    · intro hk
      exact ⟨(k - 1).toNat, mem_range.mpr (by omega), by omega⟩

theorem switched (h : History s w) (ho : switchesRun w s o = true) :
    Switched w wf (storage.next s o) ∧ (storage.next s o).journal = s.journal.deleteWorkflow w := by
  cases o with
  | startFreshRun workflowId expectedRun nextInput g =>
    have hw : workflowId = w := by
      simp only [switchesRun, Bool.and_eq_true, beq_iff_eq] at ho
      exact ho.1.1
    subst hw
    obtain ⟨wf₀, hget₀, -, hstep⟩ := startFreshRun_of_switches ho
    obtain rfl := Option.some.inj (hget.symm.trans hget₀)
    have hnext : storage.next s (.startFreshRun workflowId expectedRun nextInput g) =
        (s.startFreshRun workflowId expectedRun nextInput g).1 := rfl
    rw [hstep] at hnext
    have hrow : (storage.next s (.startFreshRun workflowId expectedRun nextInput g)).workflows.get
        workflowId = some (freshRun s wf nextInput) := by
      rw [hnext]
      exact get_set_self _ _ _
    refine ⟨⟨⟨_, hrow, rfl, rfl⟩, ?_, ?_, ?_⟩, by rw [hnext]⟩
    · rw [hnext]
      show ((s.signals.delete workflowId).get workflowId).getD [] = []
      rw [get_delete_self]
      rfl
    · rw [loadRunHistory_eq hrow ((h.step _).2 _ hrow)]
      have harchive : archivedRuns
          (storage.next s (.startFreshRun workflowId expectedRun nextInput g)) workflowId =
          archivedRuns s workflowId ++ [currentRunSummary wf] := by
        rw [archivedRuns, hnext]
        show ((s.runHistory.set workflowId _).get workflowId).getD [] = _
        rw [get_set_self]
        rfl
      rw [harchive]
      exact mem_cons_of_mem _ (mem_reverse.mpr (mem_append_right _ (.head _)))
    · intro later hstays nextInput' g'
      obtain ⟨wf', hget', hrun', -⟩ := counter_of_run hrow later hstays
      apply superseded hget'
      have hfresh : (freshRun s wf nextInput).run = wf.run + 1 := rfl
      omega
  | _ => exact nomatch ho

end

/-- **`startFreshRun` switches a run once**, in every run of the storage: while the workflow
    is stored its counter grows by one for each effective call, a call that expects another
    run changes nothing, the history shows every run once, and after an effective call
    nothing of the run before is left beside the history. -/
theorem freshRun_switches_once (config : StorageConfig) (ops : List StorageOp) (w : String)
    (wf : MutableWorkflow) (hget : (storage.run (.new config) ops).workflows.get w = some wf) :
    let s := storage.run (.new config) ops
    CountsSwitches w s wf ∧ Superseded w s wf.run ∧ HistoryComplete w s wf ∧ StepsOfRun wf ∧
      ∀ o, switchesRun w s o = true → Switched w wf (storage.next s o) ∧
        ((∀ o ∈ ops, KeysOwn w (appendedPair o)) →
          ∀ stepName, ((storage.next s o).loadJournal w stepName).2 = []) := by
  intro s
  have h : History s w :=
    run_induction (P := fun s => History s w) (fun _ o hs => hs.step o) ops
      (history_new config w)
  refine ⟨countsSwitches hget h, superseded hget, historyComplete hget h, (h.2 wf hget).steps, ?_⟩
  intro o ho
  obtain ⟨hswitched, hjournal⟩ := switched hget h ho
  refine ⟨hswitched, fun hown stepName => ?_⟩
  show (storage.next s o).journal.entriesOf w stepName = []
  rw [hjournal]
  exact (listed_of_run config hown).deleteWorkflow stepName

end

/-- A run, restarted once, with a step row in its first run. -/
def restartOps : List StorageOp := [
  .createWorkflow { workflowId := "w", workflowName := "order", input := .null } none,
  .saveStepResult ⟨"w", "pay", .null, 0, 0, none⟩ none,
  .startFreshRun "w" (some 1) none none]

theorem freshRun_switches_once_restart :
    ∃ wf, (storage.run (.new { instanceId := "i" }) restartOps).workflows.get "w" = some wf ∧
      HistoryComplete "w" (storage.run (.new { instanceId := "i" }) restartOps) wf :=
  ⟨_, rfl, (freshRun_switches_once { instanceId := "i" } restartOps "w" _ rfl).2.2.1⟩

/-- A purged workflow that is created again starts over at run 1; and where another workflow
    made a journal under the same key, `a::b::c`, the switch does not find it: an entry of the
    earlier run is still read. -/
theorem freshRun_counterexample :
    let create : String → StorageOp := fun w =>
      .createWorkflow { workflowId := w, workflowName := "order", input := .null } none
    let entry : String → String → Nat → StorageOp := fun w stepName i =>
      .appendEntry ⟨w, stepName, i, none⟩ "charge" none (.success .null) none
    let purged : List StorageOp := [create "w", .startFreshRun "w" (some 1) none none,
      .completeWorkflow "w" .null none, .advance 1, .purgeCompleted (.olderThan 0) 10, create "w"]
    let shared : List StorageOp := [create "a::b", entry "a" "b::c" 0, entry "a::b" "c" 1]
    let run : List StorageOp → InMemoryWorkflowStorage := storage.run (.new { instanceId := "i" })
    ((run (purged.take 2)).workflows.get "w").map (·.run) = some 2 ∧
      ((run purged).workflows.get "w").map (·.run) = some 1 ∧
      switchesRun "a::b" (run shared) (.startFreshRun "a::b" (some 1) none none) = true ∧
      ((storage.next (run shared) (.startFreshRun "a::b" (some 1) none none)).loadJournal
        "a::b" "c").2.map (·.activityIndex) = [0, 1] := by
  decide +kernel

end Promin.Durable

import Promin.Spec.CompensationCall

/-!
# A rollback over crashes

A rollback is a sequence of calls, each of which may crash or be abandoned
before any of its actions.
-/

namespace Promin.Durable.Compensation

open List

variable {p : Params} {c : Call}

/-- The report of the steps the ledger lists already. -/
def settledReportIn (p : Params) (w : World) : CompensationReport :=
  match w.storage.workflows.get p.workflowId with
  | none => ⟨[], []⟩
  | some wf => settledReport wf.toWorkflowState (orderIn p w)

def reportIn (p : Params) (c : Call) (w : World) : CompensationReport :=
  (pendingIn p w).foldl (fun r step => r.add step.name (outcome p c w step)) (settledReportIn p w)

theorem foldl_add (f : CompensatableStep → Option Thrown) (steps : List CompensatableStep)
    (report : CompensationReport) :
    steps.foldl (fun r step => r.add step.name (f step)) report =
      ⟨report.compensated ++ (steps.filter fun step => (f step).isNone).map (·.name),
        report.failed ++ steps.filterMap fun step => (f step).map fun e => (step.name, e)⟩ := by
  induction steps generalizing report with
  | nil => simp
  | cons step steps ih =>
    rw [foldl_cons, ih]
    cases h : f step <;> simp [CompensationReport.add, h]

section Order

variable (hnames : (p.steps.map (·.name)).Nodup) (hdag : DagOk p.dagNodes)
include hnames hdag

theorem mem_orderIn {w : World} {step : CompensatableStep} (h : step ∈ orderIn p w) :
    (stepRow p w step.name).isSome = true := by
  simp only [orderIn] at h
  cases hwf : w.storage.workflows.get p.workflowId with
  | none => simp [hwf] at h
  | some wf =>
    simp only [hwf] at h
    obtain ⟨row, hrow, -⟩ := ((mem_compensationOrder hnames hdag step).mp h).2.2
    simp only [stepRow, hwf, Option.bind_some]
    rw [hrow]
    rfl

theorem nodup_orderIn (w : World) : ((orderIn p w).map (·.name)).Nodup := by
  simp only [orderIn]
  cases w.storage.workflows.get p.workflowId with
  | none => simp
  | some wf => exact nodup_compensationOrder hnames hdag

theorem nodup_pendingIn (w : World) : ((pendingIn p w).map (·.name)).Nodup :=
  (filter_sublist.map _).nodup (nodup_orderIn hnames hdag w)

/-- **One call**: it settles its pending steps in order, all of them when it returns. -/
theorem compensateWorkflow_triple (w₀ : World) :
    Prog.Triple (Underway p c w₀)
      (fun w => w.storage.workflows = w₀.storage.workflows ∧ Progress p c w₀ [] w)
      (compensateWorkflow p c)
      (fun r w => Progress p c w₀ (pendingIn p w₀) w ∧ r = reportIn p c w₀)
      fun _ _ => True := by
  simp only [compensateWorkflow]
  apply Prog.Triple.bind (Q := fun state w => Progress p c w₀ [] w ∧
    state = (w₀.storage.workflows.get p.workflowId).map (·.toWorkflowState))
  · simp only [loadWorkflow]
    apply storageCall_triple Underway.stable
    · exact stable_of_rows fun _ _ hrows hevents h => ⟨hrows.trans h.1, h.2.congr _ hrows hevents⟩
    · intro w s a hi hw hcall
      cases hcall
      obtain ⟨hrows, hprogress⟩ := hw
      have hprogress' := hprogress.congr ⟨w.storage, w.events ++ []⟩ rfl (append_nil _)
      refine ⟨⟨[], _, rfl, hprogress'⟩, hprogress', ?_⟩
      rw [hrows]
    · intro w s e _ _ hcall
      cases hcall
  · intro state
    apply Prog.Triple.of_fact
    intro hstate
    cases hwf : w₀.storage.workflows.get p.workflowId with
    | none =>
      rw [hstate, hwf]
      have hpending : pendingIn p w₀ = [] := by simp [pendingIn, orderIn, hwf]
      apply Prog.Triple.pure
      intro w _ hw
      exact ⟨hpending ▸ hw, by simp [reportIn, settledReportIn, hpending, hwf]⟩
    | some wf =>
      rw [hstate, hwf]
      simp only [Option.map_some]
      have hget : ∀ name, wf.toWorkflowState.steps.get name = stepRow p w₀ name := by
        intro name
        simp [stepRow, hwf]
      have horder : compensationOrder p.steps wf.toWorkflowState p.dagNodes = orderIn p w₀ := by
        simp [orderIn, hwf]
      have hpending : (orderIn p w₀).filter
          (fun step => !isSettled (wf.toWorkflowState.steps.get step.name)) = pendingIn p w₀ := by
        simp only [pendingIn, settled, hget]
      rw [horder, hpending]
      have hrows : ∀ step ∈ pendingIn p w₀, (stepRow p w₀ step.name).isSome = true :=
        fun step hstep => mem_orderIn hnames hdag (mem_of_mem_filter hstep)
      apply (rollBack_triple hget (nodup_pendingIn hnames hdag w₀) hrows _ [] _ rfl).conseq
        (fun _ _ h => h) ?_ (fun _ _ _ h => h)
      intro r w _ h
      refine ⟨h.1, h.2.trans ?_⟩
      simp only [reportIn, settledReportIn, hwf]
      rfl

theorem call_underway (w₀ : World) (ms : List Moment) :
    Underway p c w₀ (compensateWorkflow p c ms w₀).2.2 :=
  (compensateWorkflow_triple hnames hdag w₀ ms w₀ ⟨[], _, rfl, Progress.start p c w₀⟩
    ⟨rfl, Progress.start p c w₀⟩).1

theorem call_returned {w₀ : World} {ms : List Moment} {report : CompensationReport}
    (h : (compensateWorkflow p c ms w₀).1 = .ok report) :
    Progress p c w₀ (pendingIn p w₀) (compensateWorkflow p c ms w₀).2.2 ∧
      report = reportIn p c w₀ := by
  have hpost := (compensateWorkflow_triple (c := c) hnames hdag w₀ ms w₀
    ⟨[], _, rfl, Progress.start p c w₀⟩ ⟨rfl, Progress.start p c w₀⟩).2
  rw [h] at hpost
  exact hpost

end Order

/-! ## Sequences of calls -/

/-- Calls one after another, each on a process with its own crash schedule. -/
def runCalls (p : Params) : List (Call × List Moment) → World → World
  | [], w => w
  | (c, ms) :: calls, w => runCalls p calls (compensateWorkflow p c ms w).2.2

def start (s : InMemoryWorkflowStorage) : World := ⟨s, []⟩

structure History (p : Params) (s : InMemoryWorkflowStorage) (wf : MutableWorkflow) (w : World) :
    Prop where
  rows : bareRows p w = bareRows p (start s)
  ledger : ∀ name, settled p w name = true ↔
    settled p (start s) name = true ∨ .recorded name ∈ w.events
  ran : ∀ pre name params post, w.events = pre ++ .ran name params :: post →
    (settled p (start s) name = false ∧ .recorded name ∉ pre) ∧
    ∀ step ∈ orderIn p (start s),
      Relation.TransGen (CompletedEdge p.steps p.dagNodes wf.toWorkflowState) step.name name →
      settled p (start s) step.name = true ∨ .recorded step.name ∈ pre

section Runs

variable {s : InMemoryWorkflowStorage} {wf : MutableWorkflow}

theorem History.start (p : Params) (s : InMemoryWorkflowStorage) (wf : MutableWorkflow) :
    History p s wf (start s) := by
  refine ⟨rfl, by simp [Compensation.start], ?_⟩
  intro pre name params post h
  simp [Compensation.start] at h

theorem settled_iff_of_progress {w w' : World} {done : List CompensatableStep}
    (h : Progress p c w done w') (name : String) :
    settled p w' name = true ↔ settled p w name = true ∨ name ∈ done.map (·.name) := by
  by_cases hname : name ∈ done.map (·.name)
  · obtain ⟨step, hstep, rfl⟩ := mem_map.mp hname
    simp [settled_of_entryFor (h.settled step hstep), hname]
  · rw [settled_eq_ledger, h.kept name hname, ← settled_eq_ledger]
    simp [hname]

/-- **A call keeps the history of the rollback in order.** -/
theorem History.call (hnames : (p.steps.map (·.name)).Nodup) (hdag : DagOk p.dagNodes)
    (hwf : s.workflows.get p.workflowId = some wf) {w w' : World} (h : History p s wf w)
    (hcall : Underway p c w w') : History p s wf w' := by
  obtain ⟨done, rest, hpending, hprogress⟩ := hcall
  obtain ⟨new, hevents, hturn⟩ := hprogress.events
  have horder : orderIn p w = orderIn p (Compensation.start s) := orderIn_of_bareRows h.rows
  constructor
  · exact hprogress.rows.trans h.rows
  · intro name
    rw [settled_iff_of_progress hprogress, h.ledger, hevents, mem_append,
      hturn.recorded, or_assoc]
  · intro pre name params post hsplit
    rw [hevents] at hsplit
    cases History.split_append hsplit with
    | inl hold =>
      obtain ⟨post', -, hold⟩ := hold
      exact h.ran pre name params post' hold
    | inr hnew =>
      obtain ⟨pre', rfl, hnew⟩ := hnew
      obtain ⟨before, step, after, hpend, rfl, hrecorded⟩ := hturn.ran pre' name params post hnew
      have hmem : step ∈ pendingIn p w := by simp [hpend]
      have hnd := nodup_pendingIn hnames hdag w
      rw [hpend, map_append, map_cons, nodup_append] at hnd
      have hnot : settled p w step.name = false := by
        simpa using (mem_filter.mp hmem).2
      have hfresh : settled p (Compensation.start s) step.name = false ∧
          .recorded step.name ∉ w.events := by
        have hledger := h.ledger step.name
        rw [hnot] at hledger
        simp only [Bool.false_eq_true, false_iff, not_or, Bool.not_eq_true] at hledger
        exact hledger
      refine ⟨⟨hfresh.1, ?_⟩, ?_⟩
      · -- recorded in this call are the pending steps before it
        rw [mem_append, not_or, hrecorded]
        exact ⟨hfresh.2, fun hin => hnd.2.2 _ hin _ mem_cons_self rfl⟩
      · intro dependent hdep hreach
        rw [mem_append]
        by_cases hsettled : settled p w dependent.name = true
        · exact ((h.ledger dependent.name).mp hsettled).imp_right .inl
        · -- a dependent that is not settled yet is pending, and comes before the step
          have hdpend : dependent ∈ pendingIn p w :=
            mem_filter.mpr ⟨horder ▸ hdep, by simpa using hsettled⟩
          have hpw : (pendingIn p w).Pairwise fun a b => ¬ Relation.TransGen
              (CompletedEdge p.steps p.dagNodes wf.toWorkflowState) b.name a.name := by
            have hall : (compensationOrder p.steps wf.toWorkflowState p.dagNodes).Pairwise _ :=
              compensationOrder_dependents_first hnames hdag
            have heq : orderIn p w = compensationOrder p.steps wf.toWorkflowState p.dagNodes := by
              rw [horder]
              simp [orderIn, Compensation.start, hwf]
            exact (heq ▸ hall).sublist filter_sublist
          rw [hpend, pairwise_append, pairwise_cons] at hpw
          rw [hpend] at hdpend
          right
          right
          rw [hrecorded]
          rcases mem_append.mp hdpend with hbefore | hafter
          · exact mem_map_of_mem (f := (·.name)) hbefore
          · cases mem_cons.mp hafter with
            | inl heq =>
              rw [heq] at hreach
              exact absurd (hreach.lift id fun _ _ hedge => hedge.1) (hdag.acyclic _)
            | inr hin => exact absurd hreach (hpw.2.1.1 dependent hin)

theorem history_runCalls (hnames : (p.steps.map (·.name)).Nodup) (hdag : DagOk p.dagNodes)
    (hwf : s.workflows.get p.workflowId = some wf) (calls : List (Call × List Moment)) :
    History p s wf (runCalls p calls (Compensation.start s)) := by
  have hrun : ∀ (calls : List (Call × List Moment)) (w : World), History p s wf w →
      History p s wf (runCalls p calls w) := by
    intro calls
    induction calls with
    | nil => exact fun w h => h
    | cons call calls ih =>
      exact fun w h => ih _ (h.call hnames hdag hwf (call_underway hnames hdag w call.2))
  exact hrun calls _ (History.start p s wf)

end Runs

/-! ## The report -/

def recordedFailure (e : Thrown) : Thrown := .text ((recordedError e).getD "compensation failed")

/-- The report with the failures of the `earlier` steps as their ledger entries read. -/
def asRecorded (earlier : String → Bool) (report : CompensationReport) : CompensationReport :=
  { report with failed := report.failed.map fun f =>
      if earlier f.1 then (f.1, recordedFailure f.2) else f }

/-- The steps each of the calls settles come to what they come to in `c`. -/
def SameOutcomes (p : Params) (c : Call) : List (Call × List Moment) → World → Prop
  | [], _ => True
  | (c', ms) :: calls, w =>
    (∀ step ∈ p.steps, settled p w step.name = false →
      settled p (compensateWorkflow p c' ms w).2.2 step.name = true →
      outcome p c' w step = outcome p c w step) ∧
    SameOutcomes p c calls (compensateWorkflow p c' ms w).2.2

theorem sameOutcomes_of_compensate {calls : List (Call × List Moment)}
    (h : ∀ call ∈ calls, call.1.compensate = c.compensate) (w : World) :
    SameOutcomes p c calls w := by
  induction calls generalizing w with
  | nil => trivial
  | cons call calls ih =>
    refine ⟨fun step _ _ _ => ?_, ih (fun call' hcall' => h call' (mem_cons_of_mem _ hcall')) _⟩
    have heq : call.1.compensate = c.compensate := h call mem_cons_self
    simp only [outcome, rollbackOutcome, heq]

/-- The ledger lists a first part of the order, with the outcomes in `c`. -/
structure Resumable (p : Params) (c : Call) (w₀ w : World) : Prop where
  rows : bareRows p w = bareRows p w₀
  split : ∃ done rest, orderIn p w₀ = done ++ rest ∧
    (∀ step ∈ done, ledger p w step.name = some (entryFor (outcome p c w₀ step))) ∧
    ∀ step ∈ rest, settled p w step.name = false

variable {w : World}

theorem pendingIn_of_split {done rest : List CompensatableStep}
    {f : CompensatableStep → Option Thrown} (horder : orderIn p w = done ++ rest)
    (hdone : ∀ step ∈ done, ledger p w step.name = some (entryFor (f step)))
    (hrest : ∀ step ∈ rest, settled p w step.name = false) : pendingIn p w = rest := by
  rw [pendingIn, horder, filter_append]
  have hnone : done.filter (fun step => !settled p w step.name) = [] := by
    rw [filter_eq_nil_iff]
    intro step hstep
    simp [settled_of_entryFor (hdone step hstep)]
  have hall : rest.filter (fun step => !settled p w step.name) = rest := by
    rw [filter_eq_self]
    intro step hstep
    simp [hrest step hstep]
  rw [hnone, hall, nil_append]

/-- The report of a rollback that has settled the first steps of its order and no other. -/
theorem settledReportIn_of_split {done rest : List CompensatableStep}
    {f : CompensatableStep → Option Thrown} (horder : orderIn p w = done ++ rest)
    (hdone : ∀ step ∈ done, ledger p w step.name = some (entryFor (f step)))
    (hrest : ∀ step ∈ rest, settled p w step.name = false) :
    settledReportIn p w =
      ⟨(done.filter fun step => (f step).isNone).map (·.name),
        done.filterMap fun step => (f step).map fun e => (step.name, recordedFailure e)⟩ := by
  simp only [settledReportIn]
  cases hwf : w.storage.workflows.get p.workflowId with
  | none =>
    have hnil : done = [] := by
      simp only [orderIn, hwf] at horder
      exact (append_eq_nil_iff.mp horder.symm).1
    simp [hnil]
  | some wf =>
    have hget : ∀ name, wf.steps.get name = stepRow p w name := by
      intro name
      simp [stepRow, hwf]
    have hrow : ∀ step ∈ done, ∃ row, stepRow p w step.name = some row ∧
        row.compensationStatus = (entryFor (f step)).1 ∧
        row.compensationError = (entryFor (f step)).2 := by
      intro step hstep
      obtain ⟨row, hrow, heq⟩ := Option.map_eq_some_iff.mp (hdone step hstep)
      exact ⟨row, hrow, by rw [← heq], by rw [← heq]⟩
    -- a step still to do has neither status
    have hfree : ∀ step ∈ rest, ∀ row, stepRow p w step.name = some row →
        row.compensationStatus ≠ some .compensated ∧
        row.compensationStatus ≠ some .compensationFailed := by
      intro step hstep row hrow
      have h := hrest step hstep
      simp only [settled, hrow, isSettled, Option.bind_some] at h
      constructor
      · intro hc
        simp [hc] at h
      · intro hc
        simp [hc] at h
    simp only [settledReport, horder, hget, filter_append, filterMap_append]
    have hcompensated : done.filter (fun step => decide
        ((stepRow p w step.name).bind (·.compensationStatus) = some .compensated)) =
        done.filter fun step => (f step).isNone := by
      apply filter_congr
      intro step hstep
      obtain ⟨row, hrow, hstatus, -⟩ := hrow step hstep
      cases hf : f step <;> simp [hrow, hstatus, entryFor, hf]
    have hcompensated' : rest.filter (fun step => decide
        ((stepRow p w step.name).bind (·.compensationStatus) = some .compensated)) = [] := by
      rw [filter_eq_nil_iff]
      intro step hstep
      cases hrow : stepRow p w step.name with
      | none => simp
      | some row => simp [(hfree step hstep row hrow).1]
    have hfailed : done.filterMap (fun step => (stepRow p w step.name).bind fun row =>
        if row.compensationStatus = some .compensationFailed then
          some (step.name, Thrown.text (row.compensationError.getD "compensation failed"))
        else none) =
        done.filterMap fun step => (f step).map fun e => (step.name, recordedFailure e) := by
      apply filterMap_congr
      intro step hstep
      obtain ⟨row, hrow, hstatus, herror⟩ := hrow step hstep
      cases hf : f step <;> simp [hrow, hstatus, herror, entryFor, hf, recordedFailure]
    have hfailed' : rest.filterMap (fun step => (stepRow p w step.name).bind fun row =>
        if row.compensationStatus = some .compensationFailed then
          some (step.name, Thrown.text (row.compensationError.getD "compensation failed"))
        else none) = [] := by
      rw [filterMap_eq_nil_iff]
      intro step hstep
      cases hrow : stepRow p w step.name with
      | none => rfl
      | some row => simp [(hfree step hstep row hrow).2]
    rw [hcompensated, hcompensated', hfailed, hfailed']
    simp

section Runs

variable (hnames : (p.steps.map (·.name)).Nodup) (hdag : DagOk p.dagNodes)
include hnames hdag

variable {w w₀ : World}

theorem mem_steps_of_mem_orderIn {step : CompensatableStep} (h : step ∈ orderIn p w) :
    step ∈ p.steps := by
  simp only [orderIn] at h
  cases hwf : w.storage.workflows.get p.workflowId with
  | none => simp [hwf] at h
  | some wf =>
    simp only [hwf] at h
    exact ((mem_compensationOrder hnames hdag step).mp h).1

theorem Resumable.call {c' : Call} {ms : List Moment} (h : Resumable p c w₀ w)
    (hsame : ∀ step ∈ p.steps, settled p w step.name = false →
      settled p (compensateWorkflow p c' ms w).2.2 step.name = true →
      outcome p c' w step = outcome p c w step) :
    Resumable p c w₀ (compensateWorkflow p c' ms w).2.2 := by
  obtain ⟨done, rest, horder, hdone, hrest⟩ := h.split
  obtain ⟨done', rest', hpending, hprogress⟩ := call_underway (c := c') hnames hdag w ms
  have horder' : orderIn p w = done ++ rest := (orderIn_of_bareRows h.rows).trans horder
  rw [pendingIn_of_split horder' hdone hrest] at hpending
  have hnd := nodup_orderIn hnames hdag w₀
  rw [horder, hpending, map_append, map_append, nodup_append] at hnd
  refine ⟨hprogress.rows.trans h.rows, done ++ done', rest', by simp [horder, hpending], ?_, ?_⟩
  · intro step hstep
    cases mem_append.mp hstep with
    | inl hin =>
      have hnot : step.name ∉ done'.map (·.name) := fun hin' =>
        hnd.2.2 _ (mem_map_of_mem hin) _ (mem_append_left _ hin') rfl
      rw [hprogress.kept _ hnot]
      exact hdone step hin
    | inr hin =>
      have hmem : step ∈ orderIn p w₀ := by
        rw [horder, hpending]
        exact mem_append_right _ (mem_append_left _ hin)
      have hsettled := settled_of_entryFor (hprogress.settled step hin)
      have hunsettled := hrest step (hpending ▸ mem_append_left _ hin)
      have heq := hsame step (mem_steps_of_mem_orderIn hnames hdag hmem) hunsettled hsettled
      rw [hprogress.settled step hin, heq, outcome_of_bareRows h.rows]
  · intro step hstep
    have hnot : step.name ∉ done'.map (·.name) := fun hin =>
      (nodup_append.mp hnd.2.1).2.2 _ hin _ (mem_map_of_mem hstep) rfl
    have hkept := settled_iff_of_progress hprogress step.name
    rw [hrest step (hpending ▸ mem_append_right _ hstep)] at hkept
    simpa [hnot] using hkept

theorem Resumable.runCalls (calls : List (Call × List Moment)) :
    ∀ w, Resumable p c w₀ w → SameOutcomes p c calls w →
      Resumable p c w₀ (runCalls p calls w) := by
  induction calls with
  | nil => exact fun w h _ => h
  | cons call calls ih =>
    exact fun w h hsame => ih _ (h.call hnames hdag hsame.1) hsame.2

/-- **The report of the call that ends the rollback** is the one of an uninterrupted call
    with the same outcomes, the failures of earlier calls as recorded. -/
theorem report_eq {last : Call} {ms ms₀ : List Moment}
    {report report₀ : CompensationReport} (hfresh : ∀ name, settled p w₀ name = false)
    (h : Resumable p c w₀ w) (hreturned : (compensateWorkflow p last ms w).1 = .ok report)
    (hsame : SameOutcomes p c [(last, ms)] w)
    (hreturned₀ : (compensateWorkflow p c ms₀ w₀).1 = .ok report₀) :
    report = asRecorded (settled p w) report₀ := by
  obtain ⟨done, rest, horder, hdone, hrest⟩ := h.split
  have horder' : orderIn p w = done ++ rest := (orderIn_of_bareRows h.rows).trans horder
  have hpending := pendingIn_of_split horder' hdone hrest
  have hpending₀ : pendingIn p w₀ = done ++ rest := by
    rw [pendingIn, horder, filter_eq_self]
    intro step _
    simp [hfresh step.name]
  obtain ⟨hprogress, hreport⟩ := call_returned hnames hdag hreturned
  obtain ⟨-, hreport₀⟩ := call_returned hnames hdag hreturned₀
  have hsettled₀ : settledReportIn p w₀ = ⟨[], []⟩ := by
    have horder₀ : orderIn p w₀ = [] ++ (done ++ rest) := horder
    exact settledReportIn_of_split (f := fun _ => none) horder₀ (by simp)
      fun step _ => hfresh step.name
  -- the last call's outcomes are those of the uninterrupted call
  have houtcome : ∀ step ∈ rest, outcome p last w step = outcome p c w₀ step := by
    intro step hstep
    have hmem : step ∈ orderIn p w₀ := horder ▸ mem_append_right _ hstep
    have hnow := settled_of_entryFor (hprogress.settled step (hpending ▸ hstep))
    have heq := hsame.1 step (mem_steps_of_mem_orderIn hnames hdag hmem) (hrest step hstep) hnow
    rw [heq, outcome_of_bareRows h.rows]
  rw [hreport, reportIn, foldl_add, settledReportIn_of_split horder' hdone hrest, hpending]
  rw [hreport₀, reportIn, foldl_add, hsettled₀, hpending₀]
  have hcomp : rest.filter (fun step => (outcome p last w step).isNone) =
      rest.filter fun step => (outcome p c w₀ step).isNone := by
    apply filter_congr
    intro step hstep
    rw [houtcome step hstep]
  have hfail : (rest.filterMap fun step => (outcome p last w step).map fun e => (step.name, e)) =
      (rest.filterMap fun step => (outcome p c w₀ step).map fun e => (step.name, e)).map fun f =>
        if settled p w f.1 then (f.1, recordedFailure f.2) else f := by
    rw [map_filterMap]
    apply filterMap_congr
    intro step hstep
    rw [houtcome step hstep]
    cases outcome p c w₀ step with
    | none => rfl
    | some e => simp [hrest step hstep]
  have hfail' : (done.filterMap fun step =>
      (outcome p c w₀ step).map fun e => (step.name, recordedFailure e)) =
      (done.filterMap fun step => (outcome p c w₀ step).map fun e => (step.name, e)).map fun f =>
        if settled p w f.1 then (f.1, recordedFailure f.2) else f := by
    rw [map_filterMap]
    apply filterMap_congr
    intro step hstep
    cases outcome p c w₀ step with
    | none => rfl
    | some e => simp [settled_of_entryFor (hdone step hstep)]
  simp [asRecorded, hcomp, hfail, hfail']

end Runs

/-! ## The rollback as a whole -/

theorem sameOutcomes_append {calls calls' : List (Call × List Moment)} :
    SameOutcomes p c (calls ++ calls') w ↔
      SameOutcomes p c calls w ∧ SameOutcomes p c calls' (runCalls p calls w) := by
  induction calls generalizing w with
  | nil => simp [SameOutcomes, runCalls]
  | cons call calls ih =>
    obtain ⟨c', ms⟩ := call
    simp only [cons_append, SameOutcomes, runCalls, ih]
    exact and_assoc.symm

theorem mem_reportIn {step : CompensatableStep} (h : step ∈ orderIn p w) :
    step.name ∈ (reportIn p c w).compensated ∨
      step.name ∈ (reportIn p c w).failed.map Prod.fst := by
  simp only [reportIn, foldl_add, map_append, mem_append]
  cases hsettled : settled p w step.name with
  | false =>
    -- a step left to settle is reported by its outcome
    have hmem : step ∈ pendingIn p w := mem_filter.mpr ⟨h, by simp [hsettled]⟩
    cases hout : outcome p c w step with
    | none => exact .inl (.inr (mem_map.mpr ⟨step, mem_filter.mpr ⟨hmem, by simp [hout]⟩, rfl⟩))
    | some e =>
      refine .inr (.inr (mem_map.mpr ⟨(step.name, e), ?_, rfl⟩))
      exact mem_filterMap.mpr ⟨step, hmem, by simp [hout]⟩
  | true =>
    -- a settled step is reported by its ledger entry
    simp only [settledReportIn]
    cases hwf : w.storage.workflows.get p.workflowId with
    | none => simp [orderIn, hwf] at h
    | some wf =>
      have hget : stepRow p w step.name = wf.steps.get step.name := by simp [stepRow, hwf]
      simp only [settled, hget, isSettled] at hsettled
      cases hrow : wf.steps.get step.name with
      | none => simp [hrow] at hsettled
      | some row =>
        simp only [hrow, Option.bind_some] at hsettled
        split at hsettled
        · rename_i hstatus
          left
          left
          exact mem_map.mpr ⟨step, mem_filter.mpr ⟨h, by simp [hrow, hstatus]⟩, rfl⟩
        · rename_i hstatus
          right
          left
          refine mem_map.mpr ⟨(step.name,
            .text (row.compensationError.getD "compensation failed")), ?_, rfl⟩
          exact mem_filterMap.mpr ⟨step, h, by simp [hrow, hstatus]⟩
        · cases hsettled

/-- **A rollback over crashes.** After any sequence of calls, each stopped anywhere, and
    one more: every compensation was run when its step was not in the ledger and all
    completed steps that depend on it were.  If the last call returns, the ledger lists
    every completed step with a `compensate` function, the report has it as compensated
    or failed, and the report is the one of an uninterrupted call with the same outcomes,
    where the failures recorded before the last call read as they were recorded. -/
theorem rollback_over_crashes (p : Params) (hnames : (p.steps.map (·.name)).Nodup)
    (hdag : DagOk p.dagNodes) (s : InMemoryWorkflowStorage) (wf : MutableWorkflow)
    (hwf : s.workflows.get p.workflowId = some wf) (calls : List (Call × List Moment))
    (last : Call) (ms : List Moment) :
    let w := runCalls p calls (start s)
    let r := compensateWorkflow p last ms w
    (∀ pre name params post, r.2.2.events = pre ++ .ran name params :: post →
      (settled p (start s) name = false ∧ .recorded name ∉ pre) ∧
      ∀ step ∈ p.steps, step.compensates = true → Completed wf.toWorkflowState step.name →
        Relation.TransGen (CompletedEdge p.steps p.dagNodes wf.toWorkflowState) step.name name →
        settled p (start s) step.name = true ∨ .recorded step.name ∈ pre) ∧
    ∀ report, r.1 = .ok report →
      (∀ step ∈ p.steps, step.compensates = true → Completed wf.toWorkflowState step.name →
        settled p r.2.2 step.name = true ∧
          (step.name ∈ report.compensated ∨ step.name ∈ report.failed.map Prod.fst)) ∧
      ∀ c ms₀ report₀, (∀ name, settled p (start s) name = false) →
        SameOutcomes p c (calls ++ [(last, ms)]) (start s) →
        (compensateWorkflow p c ms₀ (start s)).1 = .ok report₀ →
        report = asRecorded (settled p w) report₀ := by
  intro w r
  have hhistory := history_runCalls hnames hdag hwf calls
  have hmem : ∀ step ∈ p.steps, step.compensates = true →
      Completed wf.toWorkflowState step.name → step ∈ orderIn p (start s) := by
    intro step hstep hcomp hcompleted
    simp only [orderIn, start, hwf]
    exact (mem_compensationOrder hnames hdag step).mpr ⟨hstep, hcomp, hcompleted⟩
  constructor
  · intro pre name params post hsplit
    have hlast := hhistory.call hnames hdag hwf (call_underway (c := last) hnames hdag w ms)
    obtain ⟨hfresh, hdependents⟩ := hlast.ran pre name params post hsplit
    refine ⟨hfresh, ?_⟩
    intro step hstep hcomp hcompleted hreach
    exact hdependents step (hmem step hstep hcomp hcompleted) hreach
  · intro report hreport
    obtain ⟨hprogress, heq⟩ := call_returned hnames hdag hreport
    constructor
    · intro step hstep hcomp hcompleted
      have horder : step ∈ orderIn p w := by
        rw [orderIn_of_bareRows hhistory.rows]
        exact hmem step hstep hcomp hcompleted
      constructor
      · rw [settled_iff_of_progress hprogress]
        cases hsettled : settled p w step.name with
        | true => exact .inl rfl
        | false =>
          right
          exact mem_map_of_mem (mem_filter.mpr ⟨horder, by simp [hsettled]⟩)
      · rw [heq]
        exact mem_reportIn horder
    · intro c ms₀ report₀ hfresh hsame hreport₀
      obtain ⟨hcalls, hlast⟩ := sameOutcomes_append.mp hsame
      have hstart : Resumable p c (start s) (start s) :=
        ⟨rfl, [], orderIn p (start s), rfl, by simp, fun step _ => hfresh step.name⟩
      have hresumable := hstart.runCalls hnames hdag calls _ hcalls
      exact report_eq hnames hdag hfresh hresumable hreport hlast hreport₀

/-! ## A failure that is reported by its message -/

/-- A run with the steps `"a"` and `"b"`, which depends on it. -/
def twoSteps : Params where
  workflowId := "w"
  steps := [{ name := "a" }, { name := "b" }]
  dagNodes := [⟨"a", []⟩, ⟨"b", ["a"]⟩]
  input := .null

def bothCompleted : InMemoryWorkflowStorage :=
  storage.run (.new { instanceId := "i" })
    [.createWorkflow { workflowId := "w", workflowName := "n", input := .null } none,
      .saveStepResult ⟨"w", "a", .num 1, 1, 0, none⟩ none,
      .advance 5,
      .saveStepResult ⟨"w", "b", .num 2, 1, 5, none⟩ none]

def failsOnB : Call where
  compensate name _ _ := if name = "b" then some (.error "boom" none) else none

theorem twoSteps_dagOk : DagOk twoSteps.dagNodes := by
  constructor
  · decide
  · apply acyclic_of_rank fun name => if name = "b" then 1 else 0
    intro a b h
    obtain ⟨node, hnode, rfl, hb⟩ := h
    simp only [twoSteps, mem_cons, not_mem_nil, or_false] at hnode
    rcases hnode with rfl | rfl
    · simp at hb
    · simp only [mem_singleton] at hb
      subst hb
      decide

theorem rollback_over_crashes_twoSteps :
    (compensateWorkflow twoSteps failsOnB (List.replicate 10 [])
      (runCalls twoSteps [(failsOnB, List.replicate 4 [])] (start bothCompleted))).1 =
        .ok ⟨["a"], [("b", .text "boom")]⟩ ∧
    (⟨["a"], [("b", .text "boom")]⟩ : CompensationReport) =
      asRecorded (settled twoSteps (runCalls twoSteps [(failsOnB, List.replicate 4 [])]
        (start bothCompleted))) ⟨["a"], [("b", .error "boom" none)]⟩ := by
  have hreport : (compensateWorkflow twoSteps failsOnB (List.replicate 10 [])
      (runCalls twoSteps [(failsOnB, List.replicate 4 [])] (start bothCompleted))).1 =
        .ok ⟨["a"], [("b", .text "boom")]⟩ := by decide +kernel
  have hfresh : ∀ name, settled twoSteps (start bothCompleted) name = false := by
    intro name
    by_cases ha : name = "a"
    · subst ha
      rfl
    · by_cases hb : name = "b"
      · subst hb
        rfl
      · have hnone : stepRow twoSteps (start bothCompleted) name = none := by
          have hkeys : (bothCompleted.workflows.get "w").map (·.steps.keys) = some ["a", "b"] := by
            rfl
          obtain ⟨wf, hwf, hwfkeys⟩ := Option.map_eq_some_iff.mp hkeys
          have hnot : name ∉ wf.steps.keys := by simp [hwfkeys, ha, hb]
          rw [JsMap.mem_keys_iff] at hnot
          simpa [stepRow, start, twoSteps, hwf] using hnot
        simp [settled, hnone, isSettled]
  refine ⟨hreport, ?_⟩
  obtain ⟨wf, hwf⟩ : ∃ wf, bothCompleted.workflows.get twoSteps.workflowId = some wf := ⟨_, rfl⟩
  exact ((rollback_over_crashes twoSteps (by decide) twoSteps_dagOk bothCompleted wf hwf
    [(failsOnB, List.replicate 4 [])] failsOnB (List.replicate 10 [])).2 _ hreport).2 failsOnB
    (List.replicate 10 []) ⟨["a"], [("b", .error "boom" none)]⟩ hfresh
    (sameOutcomes_of_compensate (by simp) _) (by decide +kernel)

/-- A call that crashed after recording a failure, and the call after it: the report has
    the message of the error, where an uninterrupted call has the error itself. -/
theorem recorded_failure_counterexample :
    SameOutcomes twoSteps failsOnB
      [(failsOnB, List.replicate 4 []), (failsOnB, List.replicate 10 [])] (start bothCompleted) ∧
    (compensateWorkflow twoSteps failsOnB (List.replicate 10 [])
      (runCalls twoSteps [(failsOnB, List.replicate 4 [])] (start bothCompleted))).1 =
        .ok ⟨["a"], [("b", .text "boom")]⟩ ∧
    (compensateWorkflow twoSteps failsOnB (List.replicate 10 []) (start bothCompleted)).1 =
      .ok ⟨["a"], [("b", .error "boom" none)]⟩ ∧
    (⟨["a"], [("b", .text "boom")]⟩ : CompensationReport) ≠
      ⟨["a"], [("b", .error "boom" none)]⟩ :=
  ⟨sameOutcomes_of_compensate (by simp) _, by decide +kernel, by decide +kernel, by decide⟩

end Promin.Durable.Compensation

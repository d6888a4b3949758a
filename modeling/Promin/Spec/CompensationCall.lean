import Promin.ForStd.History
import Promin.Spec.Driving
import Promin.Spec.CompensationOrder

/-!
# One call of a rollback

What a call does to the ledger and which compensations it runs, up to wherever
it crashes or is abandoned (`Progress`), and what it reports when it returns.
-/

namespace Promin.Durable.Compensation

open List Option Prog InMemoryWorkflowStorage Triple

/-! ## Rows and ledger -/

variable (p : Params) (c : Call)

def stepRow (w : World) (stepName : String) : Option StepState :=
  (w.storage.workflows.get p.workflowId).bind fun wf => wf.steps.get stepName

/-- The rows of the run without their ledger entries. -/
def bareRows (w : World) : Option (String → Option StepState) :=
  (w.storage.workflows.get p.workflowId).map fun wf name =>
    (wf.steps.get name).map withoutCompensationLedger

/-- The rollback of the step is done or given up. -/
def settled (w : World) (stepName : String) : Bool := isSettled (stepRow p w stepName)

def ledger (w : World) (stepName : String) :
    Option (Option StepCompensationStatus × Option String) :=
  (stepRow p w stepName).map fun row => (row.compensationStatus, row.compensationError)

/-- The ledger entry of a rollback that threw `failure`, if it did. -/
def entryFor (failure : Option Thrown) : Option StepCompensationStatus × Option String :=
  (some (if failure.isSome then .compensationFailed else .compensated),
    failure.bind recordedError)

def orderIn (w : World) : List CompensatableStep :=
  match w.storage.workflows.get p.workflowId with
  | none => []
  | some wf => compensationOrder p.steps wf.toWorkflowState p.dagNodes

def pendingIn (w : World) : List CompensatableStep :=
  (orderIn p w).filter fun step => !settled p w step.name

/-- What trying a `compensate` function comes to, from try number `tries` on. -/
def triesOutcome (hook : Nat → Option Thrown) (tries : Nat) : (left : Nat) → Option Thrown
  | 0 => hook tries
  | left + 1 =>
    match hook tries with
    | none => none
    | some e => if isAbandonRunExit e then some e else triesOutcome hook (tries + 1) left

def rollbackOutcome (row : Option StepState) (step : CompensatableStep) : Option Thrown :=
  match decodedResult row step with
  | .error e => some e
  | .ok result =>
    triesOutcome (c.compensate step.name ⟨result, p.input, p.workflowId⟩) 0 p.maxRetries

/-- How the rollback of a step ends, by its row. -/
def outcome (w : World) (step : CompensatableStep) : Option Thrown :=
  rollbackOutcome p c (stepRow p w step.name) step

variable {p} {c}

theorem settled_eq_ledger (w : World) (stepName : String) :
    settled p w stepName = ((ledger p w stepName).elim false fun e =>
      match e.1 with
      | some .compensated => true
      | some .compensationFailed => true
      | _ => false) := by
  simp only [settled, ledger, isSettled]
  cases stepRow p w stepName <;> rfl

theorem settled_of_entryFor {w : World} {stepName : String} {failure : Option Thrown}
    (h : ledger p w stepName = some (entryFor failure)) : settled p w stepName = true := by
  rw [settled_eq_ledger, h]
  cases failure <;> rfl

theorem stepRow_of_bareRows {w w' : World} (h : bareRows p w' = bareRows p w) (name : String) :
    (stepRow p w' name).map withoutCompensationLedger =
      (stepRow p w name).map withoutCompensationLedger := by
  simp only [bareRows, stepRow] at h ⊢
  cases hw : w.storage.workflows.get p.workflowId with
  | none =>
    cases hw' : w'.storage.workflows.get p.workflowId with
    | none => rfl
    | some wf' => simp [hw, hw'] at h
  | some wf =>
    cases hw' : w'.storage.workflows.get p.workflowId with
    | none => simp [hw, hw'] at h
    | some wf' =>
      simp only [hw, hw', map_some, Option.some.injEq] at h
      exact congrFun h name

theorem eq_of_bareRows {β : Type} {w w' : World} (h : bareRows p w' = bareRows p w)
    (f : StepState → β) (hf : ∀ row, f (withoutCompensationLedger row) = f row) (name : String) :
    (stepRow p w' name).map f = (stepRow p w name).map f := by
  have hcomp : ∀ row : Option StepState, row.map f = (row.map withoutCompensationLedger).map f := by
    intro row
    cases row with
    | none => rfl
    | some row => simp [hf]
  rw [hcomp, stepRow_of_bareRows h, ← hcomp]

theorem outcome_of_bareRows {w w' : World} (h : bareRows p w' = bareRows p w)
    (step : CompensatableStep) : outcome p c w' step = outcome p c w step := by
  have hresult := eq_of_bareRows h (·.result) (fun _ => rfl) step.name
  have hjoin : ∀ row : Option StepState, row.bind (·.result) = (row.map (·.result)).join := by
    intro row
    cases row <;> rfl
  have hbind : (stepRow p w' step.name).bind (·.result) =
      (stepRow p w step.name).bind (·.result) := by
    rw [hjoin, hresult, ← hjoin]
  simp only [outcome, rollbackOutcome, decodedResult, hbind]

theorem orderIn_of_bareRows {w w' : World} (h : bareRows p w' = bareRows p w) :
    orderIn p w' = orderIn p w := by
  simp only [orderIn]
  have hrow := eq_of_bareRows h (fun row => (row.status, row.completedAt)) (fun _ => rfl)
  simp only [bareRows] at h
  simp only [stepRow] at hrow
  cases hw : w.storage.workflows.get p.workflowId with
  | none =>
    rw [hw, map_none, map_eq_none_iff] at h
    simp [h]
  | some wf =>
    cases hw' : w'.storage.workflows.get p.workflowId with
    | none => simp [hw, hw'] at h
    | some wf' =>
      simp only [hw, hw', bind_some] at hrow
      exact compensationOrder_congr hrow

/-! ## What a call does -/

structure InTurn (pending done : List CompensatableStep) (new : List Event) : Prop where
  recorded : ∀ name, .recorded name ∈ new ↔ name ∈ done.map (·.name)
  /-- A step is run when the pending steps before it, and no others, are settled. -/
  ran : ∀ pre name params post, new = pre ++ .ran name params :: post →
    ∃ before step after, pending = before ++ step :: after ∧ step.name = name ∧
      ∀ m, .recorded m ∈ pre ↔ m ∈ before.map (·.name)

theorem InTurn.nil (pending : List CompensatableStep) : InTurn pending [] [] := by
  constructor
  · simp
  · intro pre name params post h
    simp at h

theorem InTurn.snoc_ran {pending done rest : List CompensatableStep} {step : CompensatableStep}
    {new : List Event} (h : InTurn pending done new) (hpending : pending = done ++ step :: rest)
    (params : CompensateParams) : InTurn pending done (new ++ [.ran step.name params]) := by
  constructor
  · intro name
    simp [h.recorded]
  · intro pre name params' post hsplit
    cases History.split_snoc hsplit with
    | inl hlast =>
      obtain ⟨-, rfl, heq⟩ := hlast
      cases heq
      exact ⟨done, step, rest, hpending, rfl, h.recorded⟩
    | inr hinside =>
      obtain ⟨post', -, hnew⟩ := hinside
      exact h.ran pre name params' post' hnew

theorem InTurn.snoc_recorded {pending done : List CompensatableStep} {new : List Event}
    (h : InTurn pending done new) (step : CompensatableStep) :
    InTurn pending (done ++ [step]) (new ++ [.recorded step.name]) := by
  constructor
  · intro name
    simp [h.recorded]
  · intro pre name params' post hsplit
    cases History.split_snoc hsplit with
    | inl hlast => cases hlast.2.2
    | inr hinside =>
      obtain ⟨post', -, hnew⟩ := hinside
      exact h.ran pre name params' post' hnew

/-- How far a call that started in `w₀` is when it has settled `done`. -/
structure Progress (p : Params) (c : Call) (w₀ : World) (done : List CompensatableStep)
    (w : World) : Prop where
  rows : bareRows p w = bareRows p w₀
  settled : ∀ step ∈ done, ledger p w step.name = some (entryFor (outcome p c w₀ step))
  kept : ∀ name, name ∉ done.map (·.name) → ledger p w name = ledger p w₀ name
  events : ∃ new, w.events = w₀.events ++ new ∧ InTurn (pendingIn p w₀) done new

/-- A call has settled some first part of its pending steps. -/
def Underway (p : Params) (c : Call) (w₀ w : World) : Prop :=
  ∃ done rest, pendingIn p w₀ = done ++ rest ∧ Progress p c w₀ done w

section Steps

variable {w₀ w : World} {done rest : List CompensatableStep}

theorem Progress.start (p : Params) (c : Call) (w₀ : World) : Progress p c w₀ [] w₀ :=
  ⟨rfl, by simp, fun _ _ => rfl, [], by simp, InTurn.nil _⟩

theorem Progress.congr (h : Progress p c w₀ done w) (w' : World)
    (hrows : w'.storage.workflows = w.storage.workflows) (hevents : w'.events = w.events) :
    Progress p c w₀ done w' := by
  have hstep : ∀ name, stepRow p w' name = stepRow p w name := by
    intro name
    simp only [stepRow, hrows]
  constructor
  · rw [← h.rows]
    simp only [bareRows, hrows]
  · intro step hstep'
    rw [← h.settled step hstep']
    simp only [ledger, hstep]
  · intro name hname
    rw [← h.kept name hname]
    simp only [ledger, hstep]
  · rw [hevents]
    exact h.events

theorem Progress.stable : Stable (interfere p.workflowId) (Progress p c w₀ done) :=
  stable_of_rows fun _ _ hrows hevents h => h.congr _ hrows hevents

theorem Underway.stable : Stable (interfere p.workflowId) (Underway p c w₀) :=
  stable_of_rows fun _ _ hrows hevents h => by
    obtain ⟨done, rest, hpending, hprogress⟩ := h
    exact ⟨done, rest, hpending, hprogress.congr _ hrows hevents⟩

theorem Progress.ran {step : CompensatableStep} (h : Progress p c w₀ done w)
    (hpending : pendingIn p w₀ = done ++ step :: rest) (params : CompensateParams) :
    Progress p c w₀ done { w with events := w.events ++ [.ran step.name params] } := by
  obtain ⟨new, hnew, hturn⟩ := h.events
  refine ⟨h.rows, h.settled, h.kept, new ++ [.ran step.name params], ?_, ?_⟩
  · simp [hnew]
  · exact hturn.snoc_ran hpending params

theorem saveStepCompensation_rows {s s' : InMemoryWorkflowStorage} {stepName : String}
    {failure : Option Thrown} {g : FenceGuard} (h : s.saveStepCompensation p.workflowId stepName
      (if failure.isSome then .compensationFailed else .compensated)
        (failure.bind recordedError) g =
        (s', .ok ())) (events events' : List Event) :
    bareRows p ⟨s', events'⟩ = bareRows p ⟨s, events⟩ ∧
      (∀ name, name ≠ stepName → ledger p ⟨s', events'⟩ name = ledger p ⟨s, events⟩ name) ∧
      ((stepRow p ⟨s, events⟩ stepName).isSome = true →
        ledger p ⟨s', events'⟩ stepName = some (entryFor failure)) := by
  simp only [saveStepCompensation, fencedWrite] at h
  rcases fenced_cases s p.workflowId g _ with ⟨e, -, hrej⟩ | ⟨-, hacc⟩
  · rw [hrej] at h
    cases h
  · rw [hacc, Prod.mk.injEq] at h
    have hs := h.1
    cases hwf : s.workflows.get p.workflowId with
    | none =>
      simp only [hwf] at hs
      subst hs
      simp [bareRows, ledger, stepRow, hwf]
    | some wf =>
      cases hstep : wf.steps.get stepName with
      | none =>
        simp only [hwf, hstep] at hs
        subst hs
        simp [bareRows, ledger, stepRow, hwf, hstep]
      | some row =>
        simp only [hwf, hstep] at hs
        subst hs
        simp only [bareRows, ledger, stepRow, putRun,
          JsMap.get_set_self, hwf,
          map_some, bind_some, Option.some.injEq]
        refine ⟨?_, ?_, ?_⟩
        · funext name
          by_cases hname : stepName = name
          · subst hname
            simp [hstep, withoutCompensationLedger]
          · rw [JsMap.get_set_ne _ _ hname]
        · intro name hname
          rw [JsMap.get_set_ne _ _ (Ne.symm hname)]
        · intro _
          simp [entryFor]

theorem Progress.recorded {step : CompensatableStep} {s' : InMemoryWorkflowStorage}
    {g : FenceGuard} (h : Progress p c w₀ done w)
    (hnew : step.name ∉ done.map (·.name)) (hrow : (stepRow p w₀ step.name).isSome = true)
    (hsave : w.storage.saveStepCompensation p.workflowId step.name
      (if (outcome p c w₀ step).isSome then .compensationFailed else .compensated)
      ((outcome p c w₀ step).bind recordedError) g = (s', .ok ())) :
    Progress p c w₀ (done ++ [step]) ⟨s', w.events ++ [.recorded step.name]⟩ := by
  obtain ⟨hrows, hother, hself⟩ := saveStepCompensation_rows hsave w.events
    (w.events ++ [.recorded step.name])
  have hrow' : (stepRow p w step.name).isSome = true := by
    have hsome := congrArg Option.isSome (stepRow_of_bareRows h.rows step.name)
    rw [isSome_map, isSome_map] at hsome
    rw [hsome]
    exact hrow
  obtain ⟨new, hevents, hturn⟩ := h.events
  constructor
  · exact hrows.trans h.rows
  · intro step' hstep'
    cases mem_append.mp hstep' with
    | inl hdone =>
      have hne : step'.name ≠ step.name := fun heq =>
        hnew (heq ▸ mem_map_of_mem (f := (·.name)) hdone)
      rw [hother _ hne]
      exact h.settled step' hdone
    | inr hlast =>
      rw [mem_singleton.mp hlast]
      exact hself hrow'
  · intro name hname
    rw [map_append, mem_append, not_or] at hname
    rw [hother name (by simpa using hname.2)]
    exact h.kept name hname.1
  · exact ⟨new ++ [.recorded step.name], by simp [hevents], hturn.snoc_recorded step⟩

end Steps

/-! ## The parts of a call -/

section Triples

variable {w₀ : World} {done rest : List CompensatableStep}

private theorem frame_triple {α : Type}
    {call : InMemoryWorkflowStorage → InMemoryWorkflowStorage × Except StorageError α}
    (hpending : pendingIn p w₀ = done ++ rest) (hrows : ∀ s, (call s).1.workflows = s.workflows) :
    Triple (Underway p c w₀) (Progress p c w₀ done) (storageCall p.workflowId [] call)
      (fun _ w => Progress p c w₀ done w) fun e w => Progress p c w₀ done w ∧
        (isControlFlowExit e = true → isAbandonRunExit e = true) := by
  apply storageCall_triple Underway.stable Progress.stable
  · intro w s a _ hw hcall
    have hs : s.workflows = w.storage.workflows := by rw [← hrows w.storage, hcall]
    have hw' := hw.congr ⟨s, w.events ++ []⟩ hs (append_nil _)
    exact ⟨⟨done, rest, hpending, hw'⟩, hw'⟩
  · intro w s e _ hw hcall
    have hs : s.workflows = w.storage.workflows := by rw [← hrows w.storage, hcall]
    have hw' := hw.congr ⟨s, w.events⟩ hs rfl
    exact ⟨⟨done, rest, hpending, hw'⟩, hw', thrown_abandons e⟩

private theorem saveAttempt_triple (hpending : pendingIn p w₀ = done ++ rest) (stepName : String)
    (attempt startedAt : Int) (error : Option Thrown) :
    Triple (Underway p c w₀) (Progress p c w₀ done)
      (saveAttempt p c stepName attempt startedAt error)
      (fun _ w => Progress p c w₀ done w)
      fun e w => Progress p c w₀ done w ∧ isAbandonRunExit e = true := by
  apply checkpointWrite_triple
  apply frame_triple hpending
  intro s
  exact fenced_state (P := fun s' => s'.workflows = s.workflows) rfl rfl

variable {step : CompensatableStep}

section

variable (hpending : pendingIn p w₀ = done ++ step :: rest)
include hpending

private theorem compensate_triple (result : JsValue) (retry : Nat) :
    Triple (Underway p c w₀) (Progress p c w₀ done) (compensate p c step result retry)
      (fun r w => Progress p c w₀ done w ∧
        r.2 = c.compensate step.name ⟨result, p.input, p.workflowId⟩ retry)
      fun _ _ => False := by
  simp only [compensate]
  apply storageCall_triple Underway.stable Progress.stable
  · intro w s a _ hw hcall
    cases hcall
    have hw' := hw.ran hpending ⟨result, p.input, p.workflowId⟩
    exact ⟨⟨done, step :: rest, hpending, hw'⟩, hw', rfl⟩
  · intro w s e _ hw hcall
    cases hcall

private theorem tryCompensation_triple (result : JsValue) (firstAttempt : Int) (retry : Nat) :
    Triple (Underway p c w₀) (Progress p c w₀ done)
      (tryCompensation p c step result firstAttempt retry)
      (fun _ w => Progress p c w₀ done w ∧
        c.compensate step.name ⟨result, p.input, p.workflowId⟩ retry = none)
      fun e w => Progress p c w₀ done w ∧ (isAbandonRunExit e = true ∨
        c.compensate step.name ⟨result, p.input, p.workflowId⟩ retry = some e) := by
  apply Triple.bind
  · exact (compensate_triple hpending result retry).conseq (fun _ _ h => h) (fun _ _ _ h => h)
      fun _ _ _ h => h.elim
  · intro r
    obtain ⟨startedAt, failure⟩ := r
    apply of_fact
    intro hfailure
    cases failure with
    | some error =>
      apply bind (Q := fun _ w => Progress p c w₀ done w)
      · exact (saveAttempt_triple hpending _ _ _ _).conseq (fun _ _ h => h) (fun _ _ _ h => h)
          fun _ _ _ h => ⟨h.1, .inl h.2⟩
      · intro _
        exact throw fun w _ h => ⟨h, .inr hfailure.symm⟩
    | none =>
      exact (saveAttempt_triple hpending _ _ _ _).conseq (fun _ _ h => h)
        (fun _ _ _ h => ⟨h, hfailure.symm⟩) fun _ _ _ h => ⟨h.1, .inl h.2⟩

private theorem compensateStep_triple {state : WorkflowState}
    (hrow : state.steps.get step.name = stepRow p w₀ step.name) (firstAttempt : Int) :
    Triple (Underway p c w₀) (Progress p c w₀ done)
      (compensateStep p c state step firstAttempt)
      (fun _ w => Progress p c w₀ done w ∧ outcome p c w₀ step = none)
      fun e w => Progress p c w₀ done w ∧
        (isAbandonRunExit e = true ∨ outcome p c w₀ step = some e) := by
  simp only [compensateStep, outcome, rollbackOutcome, hrow]
  cases decodedResult (stepRow p w₀ step.name) step with
  | error e => exact throw fun w _ h => ⟨h, .inr rfl⟩
  | ok result =>
    simp only
    generalize hhook : c.compensate step.name ⟨result, p.input, p.workflowId⟩ = hook
    -- before try `k`, what is left to try decides the outcome
    let tries := fun k => triesOutcome hook k (p.maxRetries - k) = triesOutcome hook 0 p.maxRetries
    have hlast : ∀ k, hook k = none → tries k → triesOutcome hook 0 p.maxRetries = none := by
      intro k hk htries
      rw [← htries]
      cases p.maxRetries - k <;> simp [triesOutcome, hk]
    apply (retry (P := fun k w => Progress p c w₀ done w ∧ tries k)
      (E := fun k e w => Progress p c w₀ done w ∧ tries k ∧
        (isAbandonRunExit e = true ∨ hook k = some e)) p.maxRetries 0 ?_ ?_ ?_ ?_).conseq
      (fun _ _ h => ⟨h, rfl⟩) (fun _ _ _ h => h) (fun _ _ _ h => h)
    · intro k _ _
      apply of_fact
      intro htries
      apply (tryCompensation_triple hpending result firstAttempt k).conseq (fun _ _ h => h)
      · exact fun _ _ _ h => ⟨h.1, hlast k (hhook ▸ h.2) htries⟩
      · exact fun _ _ _ h => ⟨h.1, htries, hhook ▸ h.2⟩
    · intro k e w hk hagain h
      obtain ⟨hw, htries, hfail⟩ := h
      have hnot : isAbandonRunExit e = false := by simpa using hagain
      have hk' : hook k = some e := hfail.resolve_left (by simp [hnot])
      obtain ⟨left, hleft⟩ : ∃ left, p.maxRetries - k = left + 1 := ⟨p.maxRetries - k - 1, by omega⟩
      have hleft' : p.maxRetries - (k + 1) = left := by omega
      refine ⟨hw, ?_⟩
      simp only [tries, hleft, hleft', triesOutcome, hk', hnot, Bool.false_eq_true,
        ↓reduceIte] at htries ⊢
      exact htries
    · intro k e w _ hstop h
      exact ⟨h.1, .inl (by simpa using hstop)⟩
    · intro e w h
      obtain ⟨hw, htries, hfail⟩ := h
      refine ⟨hw, hfail.imp_right fun hk => ?_⟩
      simp only [tries, Nat.zero_add, Nat.sub_self, triesOutcome] at htries hk ⊢
      exact htries.symm.trans hk

private theorem record_triple
    (hnew : step.name ∉ done.map (·.name)) (hrow : (stepRow p w₀ step.name).isSome = true) :
    Triple (Underway p c w₀) (Progress p c w₀ done)
      (record p c step.name (outcome p c w₀ step))
      (fun _ w => Progress p c w₀ (done ++ [step]) w) fun _ _ => True := by
  apply (checkpointWrite_triple ?_).conseq (fun _ _ h => h) (fun _ _ _ h => h)
    (fun _ _ _ _ => trivial)
  apply storageCall_triple Underway.stable Progress.stable
  · intro w s a _ hw hcall
    have hw' := hw.recorded hnew hrow hcall
    exact ⟨⟨done ++ [step], rest, by simp [hpending], hw'⟩, hw'⟩
  · intro w s e _ hw hcall
    have hs : s.workflows = w.storage.workflows := by
      simp only [saveStepCompensation,
        fencedWrite] at hcall
      rcases fenced_cases w.storage p.workflowId c.guard_ _ with ⟨e', -, hrej⟩ | ⟨-, hacc⟩
      · rw [hrej, Prod.mk.injEq] at hcall
        rw [← hcall.1]
      · rw [hacc] at hcall
        cases hcall
    have hw' := hw.congr ⟨s, w.events⟩ hs rfl
    exact ⟨⟨done, step :: rest, hpending, hw'⟩, hw', thrown_abandons e⟩

end

/-- **The rest of a call's loop**: it enters each step left with its outcome. -/
theorem rollBack_triple {state : WorkflowState}
    (hstate : ∀ name, state.steps.get name = stepRow p w₀ name)
    (hnames : ((pendingIn p w₀).map (·.name)).Nodup)
    (hrows : ∀ step ∈ pendingIn p w₀, (stepRow p w₀ step.name).isSome = true) :
    ∀ (rest done : List CompensatableStep) (report : CompensationReport),
      pendingIn p w₀ = done ++ rest →
      Triple (Underway p c w₀) (Progress p c w₀ done) (rollBack p c state rest report)
        (fun r w => Progress p c w₀ (pendingIn p w₀) w ∧
          r = rest.foldl (fun r step => r.add step.name (outcome p c w₀ step)) report)
        fun _ _ => True := by
  intro rest
  induction rest with
  | nil =>
    intro done report hpending
    rw [hpending, append_nil]
    exact pure fun w _ hw => ⟨hw, rfl⟩
  | cons step rest ih =>
    intro done report hpending
    have hmem : step ∈ pendingIn p w₀ := by simp [hpending]
    have hnew : step.name ∉ done.map (·.name) := by
      rw [hpending, map_append, map_cons, nodup_append] at hnames
      exact fun h => hnames.2.2 _ h _ mem_cons_self rfl
    simp only [rollBack]
    cases c.aborted step.name with
    | some reason => exact throw fun _ _ _ => trivial
    | none =>
      simp only
      apply bind (Q := fun _ w => Progress p c w₀ done w)
      · simp only [firstAttempt]
        split
        · exact (frame_triple hpending fun _ => rfl).conseq (fun _ _ h => h) (fun _ _ _ h => h)
            fun _ _ _ _ => trivial
        · exact pure fun _ _ h => h
      intro first
      apply bind (Q := fun failure w => Progress p c w₀ done w ∧
        failure = outcome p c w₀ step)
      · apply tryCatch (R := fun e w => Progress p c w₀ done w ∧
          (isAbandonRunExit e = true ∨ outcome p c w₀ step = some e))
        · apply bind (compensateStep_triple hpending (hstate _) first)
          intro _
          exact pure fun _ _ h => ⟨h.1, h.2.symm⟩
        · intro e
          cases he : isAbandonRunExit e with
          | true => exact throw fun _ _ _ => trivial
          | false =>
            exact pure fun _ _ h => ⟨h.1, (h.2.resolve_left (by simp)).symm⟩
      intro failure
      apply of_fact
      intro hfailure
      rw [hfailure]
      apply bind (record_triple hpending hnew (hrows step hmem))
      intro _
      exact ih (done ++ [step]) (report.add step.name (outcome p c w₀ step)) (by simp [hpending])

end Triples

end Promin.Durable.Compensation

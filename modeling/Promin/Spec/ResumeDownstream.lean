import Promin.Spec.MapOverResume

/-!
# What a resume leaves of the steps it recomputes

`resume` resets the step it is called with and every step that depends on it
(`mem_downstreamOf_iff`).
-/

namespace Promin.Durable

open JsMap Finset InMemoryWorkflowStorage Relation

/-! ## The downstream steps -/

section Downstream

variable {steps : List DagNode}

private theorem grow_append (part : List DagNode) (downstream : List String) :
    ∃ added, part.foldl (fun downstream step =>
        if downstream.contains step.name then downstream
        else if step.dependsOn.any downstream.contains then downstream ++ [step.name]
        else downstream) downstream = downstream ++ added ∧
      (∀ n ∈ added, n ∉ downstream ∧ ∃ step ∈ part, step.name = n) ∧
      (∀ P : String → Prop, (∀ n ∈ downstream, P n) →
        (∀ step ∈ part, ∀ dep ∈ step.dependsOn, P dep → P step.name) → ∀ n ∈ added, P n) ∧
      (added = [] → ∀ step ∈ part, ∀ dep ∈ step.dependsOn, dep ∈ downstream →
        step.name ∈ downstream) := by
  induction part generalizing downstream with
  | nil =>
    refine ⟨[], by simp, ?_, ?_, ?_⟩
    · intro n hn
      exact absurd hn List.not_mem_nil
    · intro _ _ _ n hn
      exact absurd hn List.not_mem_nil
    · intro _ step hstep
      exact absurd hstep List.not_mem_nil
  | cons step part ih =>
    simp only [List.foldl_cons]
    -- The step is in the set, joins it, or stays out.
    by_cases hin : downstream.contains step.name = true
    · obtain ⟨added, heq, hnew, hsound, hclosed⟩ := ih downstream
      have hmem : step.name ∈ downstream := by simpa using hin
      refine ⟨added, by rw [if_pos hin, heq], ?_, ?_, ?_⟩
      · intro n hn
        obtain ⟨hout, u, hu, hname⟩ := hnew n hn
        exact ⟨hout, u, List.mem_cons_of_mem _ hu, hname⟩
      · intro P hP hsteps
        exact hsound P hP fun u hu => hsteps u (List.mem_cons_of_mem _ hu)
      · intro hnone u hu dep hdep hdown
        cases List.mem_cons.mp hu with
        | inl hstep => rw [hstep]; exact hmem
        | inr hrest => exact hclosed hnone u hrest dep hdep hdown
    · by_cases hjoins : step.dependsOn.any downstream.contains = true
      · obtain ⟨added, heq, hnew, hsound, -⟩ := ih (downstream ++ [step.name])
        have hout : step.name ∉ downstream := by simpa using hin
        obtain ⟨dep, hdep, hdown⟩ := List.any_eq_true.mp hjoins
        have hdown : dep ∈ downstream := by simpa using hdown
        refine ⟨step.name :: added, ?_, ?_, ?_, ?_⟩
        · rw [if_neg hin, if_pos hjoins, heq, List.append_assoc]
          rfl
        · intro n hn
          cases List.mem_cons.mp hn with
          | inl hstep => exact ⟨by rw [hstep]; exact hout, step, List.mem_cons_self, hstep.symm⟩
          | inr hrest =>
            obtain ⟨hnot, u, hu, hname⟩ := hnew n hrest
            refine ⟨?_, u, List.mem_cons_of_mem _ hu, hname⟩
            intro hold
            exact hnot (List.mem_append_left _ hold)
        · intro P hP hsteps
          have hstep : P step.name := hsteps step List.mem_cons_self dep hdep (hP dep hdown)
          intro n hn
          cases List.mem_cons.mp hn with
          | inl heq => rw [heq]; exact hstep
          | inr hrest =>
            apply hsound P ?_ (fun u hu => hsteps u (List.mem_cons_of_mem _ hu)) n hrest
            intro k hk
            cases List.mem_append.mp hk with
            | inl hold => exact hP k hold
            | inr hnew => rw [List.mem_singleton.mp hnew]; exact hstep
        · intro hnone
          exact nomatch hnone
      · obtain ⟨added, heq, hnew, hsound, hclosed⟩ := ih downstream
        refine ⟨added, by rw [if_neg hin, if_neg hjoins, heq], ?_, ?_, ?_⟩
        · intro n hn
          obtain ⟨hout, u, hu, hname⟩ := hnew n hn
          exact ⟨hout, u, List.mem_cons_of_mem _ hu, hname⟩
        · intro P hP hsteps
          exact hsound P hP fun u hu => hsteps u (List.mem_cons_of_mem _ hu)
        · intro hnone u hu dep hdep hdown
          cases List.mem_cons.mp hu with
          | inl hstep =>
            rw [hstep] at hdep
            have hjoin : step.dependsOn.any downstream.contains = true :=
              List.any_eq_true.mpr ⟨dep, hdep, by simpa using hdown⟩
            exact absurd hjoin hjoins
          | inr hrest => exact hclosed hnone u hrest dep hdep hdown

private def outside (steps : List DagNode) (downstream : List String) : Finset String :=
  (steps.map (·.name)).toFinset \ downstream.toFinset

private theorem outside_append_lt {downstream added : List String} {n : String} (hn : n ∈ added)
    (hout : n ∉ downstream) (hstep : ∃ step ∈ steps, step.name = n) :
    (outside steps (downstream ++ added)).card < (outside steps downstream).card := by
  apply card_lt_card
  rw [ssubset_iff_of_subset]
  · refine ⟨n, ?_, ?_⟩
    · simpa [outside, hout] using hstep
    · simp [outside, hn]
  · intro k hk
    simp only [outside, mem_sdiff, List.mem_toFinset, List.mem_append, not_or] at hk ⊢
    exact ⟨hk.1, hk.2.1⟩

/-- The passes keep what the set had and what holds along dependencies, and end with a set that
no pass adds to. -/
private theorem closeDownstream_spec (fuel : Nat) (downstream : List String)
    (hfuel : (outside steps downstream).card ≤ fuel) :
    (∀ n ∈ downstream, n ∈ closeDownstream steps fuel downstream) ∧
    (∀ P : String → Prop, (∀ n ∈ downstream, P n) →
      (∀ step ∈ steps, ∀ dep ∈ step.dependsOn, P dep → P step.name) →
      ∀ n ∈ closeDownstream steps fuel downstream, P n) ∧
    ∀ step ∈ steps, ∀ dep ∈ step.dependsOn, dep ∈ closeDownstream steps fuel downstream →
      step.name ∈ closeDownstream steps fuel downstream := by
  induction fuel generalizing downstream with
  | zero =>
    refine ⟨fun n hn => hn, fun P hP _ => hP, ?_⟩
    intro step hstep dep _ _
    -- No name is outside the set.
    have hnone : outside steps downstream = ∅ := card_eq_zero.mp (Nat.le_zero.mp hfuel)
    by_contra hout
    have hmem : step.name ∈ outside steps downstream := by
      simp only [outside, mem_sdiff, List.mem_toFinset]
      exact ⟨List.mem_map_of_mem hstep, hout⟩
    rw [hnone] at hmem
    exact absurd hmem (notMem_empty _)
  | succ fuel ih =>
    obtain ⟨added, heq, hnew, hsound, hclosed⟩ := grow_append steps downstream
    have hgrown : growDownstream steps downstream = downstream ++ added := heq
    simp only [closeDownstream, hgrown]
    cases hadded : added with
    | nil =>
      simp only [List.append_nil, if_true]
      exact ⟨fun n hn => hn, fun P hP _ => hP, hclosed hadded⟩
    | cons n rest =>
      have hlength : ¬ (downstream ++ n :: rest).length = downstream.length := by simp
      rw [if_neg hlength]
      obtain ⟨hout, hstep⟩ := hnew n (by rw [hadded]; exact List.mem_cons_self)
      have hless : (outside steps (downstream ++ n :: rest)).card <
          (outside steps downstream).card :=
        outside_append_lt List.mem_cons_self hout hstep
      obtain ⟨hkeep, hall, hend⟩ := ih (downstream ++ n :: rest) (by omega)
      refine ⟨fun k hk => hkeep k (List.mem_append_left _ hk), ?_, hend⟩
      intro P hP hsteps
      apply hall P ?_ hsteps
      intro k hk
      cases List.mem_append.mp hk with
      | inl hold => exact hP k hold
      | inr hnew => exact hsound P hP hsteps k (by rw [hadded]; exact hnew)

theorem mem_downstreamOf_iff (steps : List DagNode) (fromStep n : String) :
    n ∈ downstreamOf steps fromStep ↔ ReflTransGen (DependsOn steps) n fromStep := by
  have hfuel : (outside steps [fromStep]).card ≤ steps.length := by
    have hle : (outside steps [fromStep]).card ≤ (steps.map (·.name)).toFinset.card :=
      card_le_card sdiff_subset
    have hnames := List.toFinset_card_le (steps.map (·.name))
    rw [List.length_map] at hnames
    omega
  obtain ⟨hkeep, hsound, hclosed⟩ := closeDownstream_spec steps.length [fromStep] hfuel
  constructor
  · intro hn
    apply hsound (fun n => ReflTransGen (DependsOn steps) n fromStep) ?_ ?_ n hn
    · intro k hk
      rw [List.mem_singleton.mp hk]
    · intro step hstep dep hdep hreach
      exact .head ⟨step, hstep, rfl, hdep⟩ hreach
  · intro hreach
    induction hreach using ReflTransGen.head_induction_on with
    | refl => exact hkeep fromStep List.mem_cons_self
    | head hedge _ ih =>
      obtain ⟨step, hstep, rfl, hdep⟩ := hedge
      exact hclosed step hstep _ hdep ih

end Downstream

/-! ## What a reset leaves -/

/-- The step without what an earlier rollback noted. -/
def freshLedger (step : StepState) : StepState :=
  if step.compensationStatus.isSome then withoutCompensationLedger step else step

def withRows (steps : JsMap String StepState) (updatedAt : Int) (wf : MutableWorkflow) :
    MutableWorkflow :=
  { wf with steps := steps, updatedAt := updatedAt }

variable (wf : MutableWorkflow)

/-- The run as if it had not ended. -/
def withoutOutcome : MutableWorkflow :=
  if wf.status.isTerminal then
    { wf with
      status := .running
      result := none
      error := none
      errorTag := none
      tripwire := none
      completedAt := none }
  else wf

def otherRows (names : List String) (wf : MutableWorkflow) : JsMap String StepState :=
  wf.steps.restrict fun name => decide (name ∉ names)

/-- The journals of all but the steps `names` of the run. -/
def otherJournals (workflowId : String) (names : List String) (j : InMemoryJournal) :
    JsMap String JournalSlots :=
  j.journal.restrict fun key => decide (key ∉ names.map (journalKey workflowId))

private theorem foldl_deleteStep_eq (w : String) (names : List String) (j : InMemoryJournal) :
    names.foldl (fun j stepName => j.deleteStep w stepName) j =
      { j with journal := otherJournals w names j } := by
  have hfold : ∀ j : InMemoryJournal, names.foldl (fun j stepName => j.deleteStep w stepName) j =
      { j with
        journal := (names.map (journalKey w)).foldl (fun m key => m.delete key) j.journal } := by
    induction names with
    | nil => exact fun _ => rfl
    | cons name rest ih =>
      intro j
      rw [List.foldl_cons, ih]
      rfl
  rw [hfold, foldl_delete]
  rfl

variable {w : String} {names : List String} {s : InMemoryWorkflowStorage}

theorem resetSteps_eq {wf : MutableWorkflow}
    (hwf : s.workflows.get w = some wf) (hnames : names ≠ []) :
    s.resetSteps w names = ({ s with
      workflows := s.workflows.set w (withoutOutcome
        (withRows ((otherRows names wf).mapValues fun _ step => freshLedger step) s.now wf))
      journal := { s.journal with journal := otherJournals w names s.journal } }, .ok ()) := by
  have hnonempty : names.isEmpty = false := by simpa using hnames
  unfold resetSteps
  simp only [hwf, hnonempty, Bool.false_eq_true, if_false, foldl_deleteStep_eq, foldl_delete]
  rfl

/-! ## Resuming -/

/-- The two states of the storage differ at most in what the steps `names` of the run computed,
that is, in their rows and journals, and in the outcome of the run when it has ended. -/
structure SameApart (workflowId : String) (names : List String) (s t : InMemoryWorkflowStorage) :
    Prop where
  others : t = { s with workflows := t.workflows, journal := t.journal }
  runs : ∃ wf wf', s.workflows.get workflowId = some wf ∧
    t.workflows = s.workflows.set workflowId wf' ∧ otherRows names wf' = otherRows names wf ∧
    withoutOutcome (withRows wf.steps wf.updatedAt wf') = withoutOutcome wf
  journals : t.journal = { s.journal with journal := t.journal.journal } ∧
    otherJournals workflowId names t.journal = otherJournals workflowId names s.journal

def InMemoryWorkflowStorage.stepRow (s : InMemoryWorkflowStorage) (workflowId stepName : String) :
    Option StepState :=
  (s.workflows.get workflowId).bind fun wf => wf.steps.get stepName

private theorem load_reset (j : InMemoryJournal) (names : List String) (w n : String) :
    (({ j with journal := otherJournals w names j } : InMemoryJournal).load w n).2 =
      if n ∈ names then [] else (j.load w n).2 := by
  have hkey : journalKey w n ∈ names.map (journalKey w) ↔ n ∈ names := by
    rw [List.mem_map]
    constructor
    · intro hmem
      obtain ⟨n', hn', heq⟩ := hmem
      have hname : n' = n := (String.append_right_inj (w ++ "::")).mp heq
      rw [← hname]
      exact hn'
    · exact fun hn => ⟨n, hn, rfl⟩
  have hget : ({ j with journal := otherJournals w names j } : InMemoryJournal).journalOf w n =
      if n ∈ names then none else j.journalOf w n := by
    simp only [InMemoryJournal.journalOf, otherJournals, JsMap.restrict, get_filter]
    by_cases hn : n ∈ names
    · cases j.journal.get (journalKey w n) <;> simp [hn, hkey]
    · cases j.journal.get (journalKey w n) <;> simp [hn, hkey]
  unfold InMemoryJournal.load
  rw [hget]
  by_cases hn : n ∈ names
  · simp only [if_pos hn]
  · simp only [if_neg hn]
    cases j.journalOf w n with
    | none => rfl
    | some slots =>
      cases hsorted : slots.sorted <;> simp only [hsorted]

theorem withoutOutcome_withRows (steps : JsMap String StepState) (updatedAt : Int) :
    withoutOutcome (withRows steps updatedAt wf) =
      withRows steps updatedAt (withoutOutcome wf) := by
  cases hended : wf.status.isTerminal <;> simp [withoutOutcome, withRows, hended]

theorem resetSteps_sameApart {t : InMemoryWorkflowStorage}
    (h : SameApart w names s t) (hnames : names ≠ []) :
    t.resetSteps w names = s.resetSteps w names := by
  obtain ⟨wf, wf', hwf, hruns, hrows, hrun⟩ := h.runs
  have hwf' : t.workflows.get w = some wf' := by rw [hruns, get_set_self]
  obtain ⟨hjournal, hothers⟩ := h.journals
  have hnow : t.now = s.now := by rw [h.others]
  have hreset : ∀ rows : JsMap String StepState,
      withoutOutcome (withRows rows s.now wf') = withoutOutcome (withRows rows s.now wf) := by
    intro rows
    rw [withoutOutcome_withRows, withoutOutcome_withRows, ← hrun, withoutOutcome_withRows]
    rfl
  have hkept : ({ t.journal with journal := otherJournals w names t.journal } : InMemoryJournal) =
      { s.journal with journal := otherJournals w names s.journal } := by
    rw [hothers, hjournal]
  rw [resetSteps_eq hwf' hnames, resetSteps_eq hwf hnames, hrows, hnow, hreset, hkept, hruns,
    set_set, h.others]

theorem withoutOutcome_input : (withoutOutcome wf).input = wf.input := by
  unfold withoutOutcome
  split <;> rfl

theorem withoutOutcome_steps : (withoutOutcome wf).steps = wf.steps := by
  unfold withoutOutcome
  split <;> rfl

theorem resetSteps_step {s' : InMemoryWorkflowStorage} {wf : MutableWorkflow}
    (hwf : s.workflows.get w = some wf) (hnames : names ≠ [])
    (hreset : s.resetSteps w names = (s', .ok ())) (n : String) :
    s'.stepRow w n = (if n ∈ names then none else (s.stepRow w n).map freshLedger) ∧
      (s'.journal.load w n).2 = if n ∈ names then [] else (s.journal.load w n).2 := by
  rw [resetSteps_eq hwf hnames] at hreset
  obtain ⟨hs', -⟩ := Prod.mk.inj hreset
  have hruns := congrArg (·.workflows) hs'
  have hjournal := congrArg (·.journal) hs'
  simp only at hruns hjournal
  constructor
  · simp only [stepRow, ← hruns, get_set_self, Option.bind_some,
      withoutOutcome_steps, withRows, get_mapValues, otherRows, JsMap.restrict,
      get_filter, hwf]
    by_cases hn : n ∈ names
    · cases wf.steps.get n <;> simp [hn]
    · cases wf.steps.get n <;> simp [hn]
  · rw [← hjournal]
    exact load_reset s.journal names w n

private theorem resume_ok {s' : InMemoryWorkflowStorage} {steps : List DagNode}
    {workflowName fromStep : String} {input : JsValue}
    (h : s.resume steps workflowName w fromStep = (s', .ok input)) :
    ∃ wf, s.workflows.get w = some wf ∧ (!steps.any (·.name == fromStep)) = false ∧
      s.resetSteps w (downstreamOf steps fromStep) = (s', .ok ()) ∧ input = wf.input := by
  unfold resume at h
  cases hwf : s.workflows.get w with
  | none =>
    rw [hwf] at h
    cases h
  | some wf =>
    simp only [hwf] at h
    cases hdeclared : !steps.any (·.name == fromStep) with
    | true =>
      rw [hdeclared] at h
      cases h
    | false =>
      simp only [hdeclared, Bool.false_eq_true, if_false] at h
      cases hreset : s.resetSteps w (downstreamOf steps fromStep) with
      | mk t answer =>
        simp only [hreset] at h
        cases answer with
        | error e => cases h
        | ok _ =>
          obtain ⟨rfl, hinput⟩ := Prod.mk.inj h
          cases hinput
          exact ⟨wf, rfl, rfl, rfl, rfl⟩

/-- What `resume` leaves of the steps it recomputes, what it keeps of the others, and which
stored states it makes the same: the run that is driven again starts from a state in which
nothing is left that these steps had computed. -/
theorem resume_recomputes {s s' : InMemoryWorkflowStorage} {steps : List DagNode}
    {workflowName w fromStep : String} {input : JsValue}
    (h : s.resume steps workflowName w fromStep = (s', .ok input)) :
    (∀ n, ReflTransGen (DependsOn steps) n fromStep →
      s'.stepRow w n = none ∧ (s'.journal.load w n).2 = []) ∧
    (∀ step ∈ steps, ¬ ReflTransGen (DependsOn steps) step.name fromStep →
      s'.stepRow w step.name = (s.stepRow w step.name).map freshLedger ∧
        (s'.journal.load w step.name).2 = (s.journal.load w step.name).2) ∧
    ∀ t, SameApart w (downstreamOf steps fromStep) s t →
      t.resume steps workflowName w fromStep = (s', .ok input) := by
  obtain ⟨wf, hwf, hdeclared, hreset, rfl⟩ := resume_ok h
  have hnames : downstreamOf steps fromStep ≠ [] :=
    List.ne_nil_of_mem ((mem_downstreamOf_iff steps fromStep fromStep).mpr .refl)
  refine ⟨fun n hn => ?_, fun step _ hstep => ?_, fun t ht => ?_⟩
  · have hgone := resetSteps_step hwf hnames hreset n
    simpa only [if_pos ((mem_downstreamOf_iff steps fromStep n).mpr hn)] using hgone
  · have hkept := resetSteps_step hwf hnames hreset step.name
    have hout : step.name ∉ downstreamOf steps fromStep := fun hmem =>
      hstep ((mem_downstreamOf_iff steps fromStep step.name).mp hmem)
    simpa only [if_neg hout] using hkept
  · obtain ⟨_, wf', hwf₀, hruns, -, hrun⟩ := ht.runs
    rw [hwf] at hwf₀
    cases hwf₀
    have hwf' : t.workflows.get w = some wf' := by rw [hruns, get_set_self]
    have hinput : wf'.input = wf.input := by
      have hfield : (withoutOutcome (withRows wf.steps wf.updatedAt wf')).input =
          (withoutOutcome wf).input := by rw [hrun]
      rw [withoutOutcome_input, withoutOutcome_input] at hfield
      exact hfield
    unfold resume
    simp only [hwf', hdeclared, resetSteps_sameApart ht hnames, hreset, hinput]
    rfl

/-- A workflow of two steps, the second a loop. -/
def pollFlow : List DagNode := [⟨"seed", []⟩, ⟨"poll", ["seed"]⟩]

/-- A run of it that failed after the loop: the first step is compensated. -/
def failedPoll : InMemoryWorkflowStorage :=
  storage.run createdRun [
    .saveStepResult ⟨"w", "seed", .num 1, 0, 0, none⟩ none,
    .saveStepResult ⟨"w", "poll.iter.0", .num 5, 0, 0, none⟩ none,
    .saveStepResult ⟨"w", "poll", .num 5, 0, 0, none⟩ none,
    .saveStepCompensation "w" "seed" .compensated none none,
    .failWorkflow "w" "boom" none none]

theorem resume_recomputes_failedPoll :
    (failedPoll.resume pollFlow "flow" "w" "poll").1.stepRow "w" "poll" = none := by
  have hresume : failedPoll.resume pollFlow "flow" "w" "poll" =
      ((failedPoll.resume pollFlow "flow" "w" "poll").1, .ok .null) := by
    decide +kernel
  exact ((resume_recomputes hresume).1 "poll" .refl).1

/-- The loop that is run again answers with the iteration it ran before the resume, and no body
runs; the step that is kept has lost its compensation. -/
theorem stale_iteration_counterexample :
    (pollOnce.execute unguardedExec (List.replicate 6 [])
        ⟨(failedPoll.resume pollFlow "flow" "w" "poll").1, []⟩).1 = .ok 5 ∧
      (pollOnce.execute unguardedExec (List.replicate 6 [])
        ⟨(failedPoll.resume pollFlow "flow" "w" "poll").1, []⟩).2.2.events = [] ∧
      pollOnce.body 0 = .ok 0 ∧
      (failedPoll.stepRow "w" "seed").bind (·.compensationStatus) = some .compensated ∧
      ((failedPoll.resume pollFlow "flow" "w" "poll").1.stepRow "w" "seed").bind
        (·.compensationStatus) = none := by
  decide +kernel

end Promin.Durable

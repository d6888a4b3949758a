import Promin.Distributed.StepQueueExecutor
import Promin.Spec.StepQueueIndex
import Promin.Spec.StepQueueWalk

/-!
# The outcomes the step queue executor answers

Over every run of the system, with any number of attempts, workers and other
callers: an attempt answers the outcome of a task of its step and run, and no
outcome is consumed twice.
-/

namespace Promin.Distributed

open InMemoryStepQueue List JsMap Machine StepAttempt StepQueueSystem

/-! ## The history of a queue -/

/-- The task a call adds. -/
def enqueuedBy (q : InMemoryStepQueue) : StepQueueOp → List (String × StepQueueEnqueueParams)
  | .enqueue p =>
    match q.activeByKey.get (activeKey p.workflowId p.stepName) with
    | some _ => []
    | none => [(taskIdOf (q.counter + 1), p)]
  | _ => []

/-- The tasks a call settles. -/
def settledBy (q : InMemoryStepQueue) (o : StepQueueOp) : List (String × MutableTask) :=
  (stepQueue.next q o).tasks.entries.filter fun e =>
    e.2.status.settled && (q.tasks.get e.1).any fun t => !t.status.settled

/-- The tasks a call marks as consumed. -/
def consumedBy (q : InMemoryStepQueue) (o : StepQueueOp) : List String :=
  ((stepQueue.next q o).tasks.entries.filter fun e =>
    e.2.consumedAt.isSome && (q.tasks.get e.1).any fun t => t.consumedAt.isNone).map Prod.fst

/-! ## What an operation does to an outcome -/

/-- What an operation does to a row, as far as its outcome is concerned. -/
inductive OutcomeStep (q : InMemoryStepQueue) (o : StepQueueOp) (id : String) :
    Option MutableTask → Option MutableTask → Prop where
  | same (row : Option MutableTask) : OutcomeStep q o id row row
  | created {p : StepQueueEnqueueParams} (ho : o = .enqueue p) (hid : id = taskIdOf (q.counter + 1))
      (hfree : q.activeByKey.get (activeKey p.workflowId p.stepName) = none) :
      OutcomeStep q o id none (some (q.newTask id p))
  | moved {t t' : MutableTask} (hopen : t.status.settled = false) (hpair : t'.pair = t.pair)
      (hrun : t'.run = t.run) (hcons : t'.consumedAt = t.consumedAt) :
      OutcomeStep q o id (some t) (some t')
  | consumed {t : MutableTask} (hsettled : t.status.settled = true) (hopen : t.consumedAt = none)
      (at_ : Int) : OutcomeStep q o id (some t) (some { t with consumedAt := some at_ })
  | purged {t : MutableTask} (hsettled : t.status.settled = true) : OutcomeStep q o id (some t) none

variable {q : InMemoryStepQueue} {o : StepQueueOp}

private theorem onCurrentClaim_outcome (taskId : String) (token : Option String)
    (f : MutableTask → MutableTask) (id : String)
    (hf : ∀ t, (f t).pair = t.pair ∧ (f t).run = t.run ∧ (f t).consumedAt = t.consumedAt) :
    OutcomeStep q o id (q.tasks.get id) ((q.onCurrentClaim taskId token f).1.tasks.get id) := by
  rcases onCurrentClaim_cases q taskId token f with h | ⟨t, hget, hrun, -, h⟩
  · rw [h]
    exact .same _
  · rw [h]
    by_cases hid : taskId = id
    · subst hid
      rw [hget, get_set_self]
      obtain ⟨hpair, hsame, hcons⟩ := hf t
      exact .moved (by rw [hrun]; rfl) hpair hsame hcons
    · rw [get_set_ne _ _ hid]
      exact .same _

/-- Consuming leaves a row alone, or marks its outcome as taken. -/
private inductive Consumes : Option MutableTask → Option MutableTask → Prop where
  | same (row : Option MutableTask) : Consumes row row
  | consumed {t : MutableTask} (hsettled : t.status.settled = true) (hopen : t.consumedAt = none)
      (at_ : Int) : Consumes (some t) (some { t with consumedAt := some at_ })

private theorem Consumes.outcome {row row' : Option MutableTask} (h : Consumes row row')
    (id : String) : OutcomeStep q o id row row' := by
  cases h with
  | same => exact .same _
  | consumed hsettled hopen at_ => exact .consumed hsettled hopen at_

private theorem Consumes.trans {row row' row'' : Option MutableTask} (h : Consumes row row')
    (h' : Consumes row' row'') : Consumes row row'' := by
  cases h with
  | same => exact h'
  | consumed hsettled hopen at_ =>
    cases h' with
    | same => exact .consumed hsettled hopen at_
    | consumed _ hopen' _ => exact nomatch hopen'

private theorem consume_consumes (q : InMemoryStepQueue) (taskId id : String) :
    Consumes (q.tasks.get id) ((q.consume taskId).1.tasks.get id) := by
  rcases consume_cases q taskId with h | ⟨t, hget, hopen, hsettled, h⟩
  · rw [h]
    exact .same _
  · rw [h]
    by_cases hid : taskId = id
    · subst hid
      rw [hget, get_set_self]
      exact .consumed hsettled hopen _
    · rw [get_set_ne _ _ hid]
      exact .same _

private theorem consumeSettled_consumes (workflowId : String) (stepNames : List String)
    (q : InMemoryStepQueue) (id : String) :
    Consumes (q.tasks.get id) ((q.consumeSettled workflowId stepNames).1.tasks.get id) := by
  induction stepNames generalizing q with
  | nil => exact .same _
  | cons stepName rest ih =>
    have hstep : Consumes (q.tasks.get id)
        ((q.consumeSettledStep workflowId stepName).1.tasks.get id) := by
      unfold consumeSettledStep
      split
      · exact .same _
      · exact consume_consumes q _ id
    exact hstep.trans (ih _)

/-- **What an operation does to a row, as far as its outcome is concerned.** -/
theorem step_outcome (hq : Issued q) (o : StepQueueOp) (id : String) :
    OutcomeStep q o id (q.tasks.get id) ((stepQueue.next q o).tasks.get id) := by
  cases o with
  | advance ms | leaderLeases leases => exact .same _
  | enqueue p =>
    show OutcomeStep q _ id _ ((q.enqueue p).1.tasks.get id)
    rcases enqueue_cases q p with ⟨existing, -, h⟩ | ⟨hfree, h⟩
    · rw [h]
      exact .same _
    · rw [h]
      by_cases hid : taskIdOf (q.counter + 1) = id
      · -- the counter's id is new
        rw [← hid, hq.next_free, get_set_self]
        exact .created rfl rfl hfree
      · rw [get_set_ne _ _ hid]
        exact .same _
  | claim p =>
    show OutcomeStep q _ id _ ((q.claim p).1.tasks.get id)
    obtain ⟨hnd, hstored⟩ := picked_spec q p
    rw [claim_eq_handOut]
    rcases handOut_tasks p.workerId hnd q id with ⟨-, hget⟩ | ⟨t, n, hmem, hget⟩
    · rw [hget]
      exact .same _
    · obtain ⟨hstore, hclaimable⟩ := hstored _ hmem
      rw [hget, hstore]
      exact .moved (by rw [pending_of_claimable hclaimable]; rfl) rfl rfl rfl
  | release taskId token | heartbeat taskId token | complete p | fail p =>
    exact onCurrentClaim_outcome _ _ _ id fun _ => ⟨rfl, rfl, rfl⟩
  | requeueStuck p =>
    show OutcomeStep q _ id _ ((q.requeueStuck p).1.tasks.get id)
    rcases requeueStuck_cases q p with h | h
    · rw [h]
      exact .same _
    · rw [h]
      simp only [get_mapValues]
      cases hget : q.tasks.get id with
      | none => exact .same _
      | some t =>
        simp only [Option.map_some, sweptTask]
        split
        · rename_i hstuck
          have hopen : t.status.settled = false := by
            simp only [stuck, Bool.and_eq_true, beq_iff_eq] at hstuck
            rw [hstuck.1]
            rfl
          split
          · exact .moved hopen rfl rfl rfl
          · exact .moved hopen rfl rfl rfl
        · exact .same _
  | consume taskId => exact (consume_consumes q taskId id).outcome id
  | consumeSettled workflowId stepNames =>
    exact (consumeSettled_consumes workflowId stepNames q id).outcome id
  | purge completedBefore =>
    show OutcomeStep q _ id _ ((q.purge completedBefore).1.tasks.get id)
    simp only [purge, get_filter]
    cases hget : q.tasks.get id with
    | none => exact .same _
    | some t =>
      by_cases hp : purgeable completedBefore t = true
      · rw [Option.filter_some_neg (by simp [hp])]
        simp only [purgeable, Bool.and_eq_true] at hp
        exact .purged hp.1
      · rw [Option.filter_some_pos (by simp [hp])]
        exact .same _

theorem mem_settledBy_iff {id : String} {row : MutableTask} :
    (id, row) ∈ settledBy q o ↔ (stepQueue.next q o).tasks.get id = some row ∧
      row.status.settled = true ∧ ∃ t, q.tasks.get id = some t ∧ t.status.settled = false := by
  rw [settledBy, mem_filter, mem_entries_iff]
  cases hget : q.tasks.get id with
  | none => simp
  | some t => simp

theorem mem_consumedBy_iff {id : String} :
    id ∈ consumedBy q o ↔ ∃ row, (stepQueue.next q o).tasks.get id = some row ∧
      row.consumedAt.isSome = true ∧ ∃ t, q.tasks.get id = some t ∧ t.consumedAt = none := by
  unfold consumedBy
  rw [mem_map]
  constructor
  · rintro ⟨e, he, rfl⟩
    obtain ⟨hmem, hboth⟩ := mem_filter.mp he
    rw [Bool.and_eq_true, Option.any_eq_true] at hboth
    obtain ⟨hsome, t, ht, hnone⟩ := hboth
    exact ⟨e.2, (mem_entries_iff _ _ _).mp hmem, hsome, t, ht,
      Option.isNone_iff_eq_none.mp hnone⟩
  · rintro ⟨row, hrow, hsome, t, ht, hnone⟩
    refine ⟨(id, row), mem_filter.mpr ⟨(mem_entries_iff _ _ _).mpr hrow, ?_⟩, rfl⟩
    simp [hsome, ht, hnone]

/-! ## The rows of a run, by its history -/

structure RowHistory (created : List (String × StepQueueEnqueueParams))
    (settled : List (String × MutableTask)) (id : String) (t : MutableTask) : Prop where
  enqueued : ∃ p, (id, p) ∈ created ∧ t.pair = (p.workflowId, p.stepName) ∧ t.run = p.run.getD 1
  outcome : t.status.settled = true →
    ∃ row, (id, row) ∈ settled ∧ t = { row with consumedAt := t.consumedAt }

variable (config : InMemoryStepQueueConfig)

theorem run_history (ops : List StepQueueOp) :
    ∀ id t, (stepQueue.run (.new config) ops).tasks.get id = some t →
      RowHistory (stepQueue.trace enqueuedBy (.new config) ops)
        (stepQueue.trace settledBy (.new config) ops) id t := by
  induction ops using List.reverseRecOn with
  | nil =>
    intro id t hget
    simp [InMemoryStepQueue.new] at hget
  | append_singleton ops o ih =>
    intro id t hget
    rw [run_snoc] at hget
    rw [trace_snoc, trace_snoc]
    have hq := run_issued config ops
    generalize stepQueue.run (.new config) ops = q at hget ih hq
    have hstep := step_outcome hq o id
    rw [hget] at hstep
    generalize hbefore : q.tasks.get id = before at hstep
    -- what the history has stays in it
    have hold : ∀ t, q.tasks.get id = some t →
        ∃ p, (id, p) ∈ stepQueue.trace enqueuedBy (.new config) ops ++ enqueuedBy q o ∧
          t.pair = (p.workflowId, p.stepName) ∧ t.run = p.run.getD 1 := by
      intro t ht
      obtain ⟨p, hp, hrest⟩ := (ih id t ht).enqueued
      exact ⟨p, mem_append_left _ hp, hrest⟩
    cases hstep with
    | same =>
      refine ⟨hold t hbefore, fun hsettled => ?_⟩
      obtain ⟨row, hrow, heq⟩ := (ih id t hbefore).outcome hsettled
      exact ⟨row, mem_append_left _ hrow, heq⟩
    | created ho hid hfree =>
      rename_i p
      refine ⟨⟨p, mem_append_right _ ?_, rfl, rfl⟩, fun hsettled => by cases hsettled⟩
      subst ho
      simp [enqueuedBy, hfree, hid]
    | moved hopen hpair hrun hcons =>
      rename_i t₀
      obtain ⟨p, hp, hpair₀, hrun₀⟩ := hold t₀ hbefore
      refine ⟨⟨p, hp, hpair.trans hpair₀, hrun.trans hrun₀⟩, fun hsettled => ?_⟩
      exact ⟨t, mem_append_right _ (mem_settledBy_iff.mpr ⟨hget, hsettled, t₀, hbefore, hopen⟩),
        rfl⟩
    | consumed hsettled hopen at_ =>
      rename_i t₀
      refine ⟨hold t₀ hbefore, fun _ => ?_⟩
      obtain ⟨row, hrow, heq⟩ := (ih id t₀ hbefore).outcome hsettled
      refine ⟨row, mem_append_left _ hrow, ?_⟩
      rw [heq]

/-- The id was handed out, and its outcome is consumed if its row is there. -/
private def Taken (q : InMemoryStepQueue) (id : String) : Prop :=
  IdIssued id q ∧ ∀ t, q.tasks.get id = some t → t.consumedAt.isSome = true

private theorem Taken.step (hq : Issued q) {id : String} (h : Taken q id) :
    Taken (stepQueue.next q o) id := by
  refine ⟨step_idIssued o h.1, fun t hget => ?_⟩
  have hstep := step_outcome hq o id
  have hold := h.2
  rw [hget] at hstep
  generalize q.tasks.get id = before at hstep hold
  cases hstep with
  | same => exact hold t rfl
  | created ho hid hfree =>
    -- a new id is none that was handed out
    obtain ⟨n, hn, heq⟩ := h.1
    have hnumber := taskIdOf_inj (hid.symm.trans heq)
    omega
  | moved hopen hpair hrun hcons => exact hcons ▸ hold _ rfl
  | consumed hsettled hopen at_ => rfl

theorem run_consumed_nodup (ops : List StepQueueOp) :
    (stepQueue.trace consumedBy (.new config) ops).Nodup := by
  have hpairwise := pairwise_trace (M := stepQueue) (L := consumedBy)
    (C := fun _ _ => True) (I := Issued) (B := Taken) (R := fun a b => a ≠ b)
    (fun q o _ hq => step_issued hq o) (fun q o id _ hq h => h.step hq)
    (fun q o id _ hq hmem => ?_) (fun q o a b _ hq ha hb => ?_) (fun q o _ _ => ?_)
    (always_of_forall (fun _ _ => trivial) (.new config) ops) (issued_new config)
  · exact hpairwise.1
  · obtain ⟨row, hrow, hsome, t, ht, -⟩ := mem_consumedBy_iff.mp hmem
    refine ⟨step_idIssued o (hq id (by rw [ht]; rfl)), fun t' ht' => ?_⟩
    rw [hrow] at ht'
    cases ht'
    exact hsome
  · rintro rfl
    obtain ⟨-, -, -, t, ht, hnone⟩ := mem_consumedBy_iff.mp hb
    have hsome := ha.2 t ht
    rw [hnone] at hsome
    exact nomatch hsome
  · exact (filter_sublist.map _).nodup (stepQueue.next q o).tasks.nodup

/-! ## The system -/

/-- The call an event makes on the queue. -/
def queueCalls (s : StepQueueSystem) (e : StepQueueEvent) : List StepQueueOp :=
  (s.queueCall e).toList

theorem run_toList (q : InMemoryStepQueue) (call : Option StepQueueOp) :
    (match call with
      | some o => stepQueue.next q o
      | none => q) = stepQueue.run q call.toList := by
  cases call <;> rfl

variable (storage : Durable.InMemoryWorkflowStorage)

theorem run_queue (events : List StepQueueEvent) :
    (stepQueueSystem.run (.new config storage) events).queue =
      stepQueue.run (.new config)
        (stepQueueSystem.trace queueCalls (.new config storage) events) := by
  induction events using List.reverseRecOn with
  | nil => rfl
  | append_singleton events e ih =>
    rw [run_snoc, trace_snoc, run_append, ← ih]
    generalize stepQueueSystem.run (.new config storage) events = s
    exact run_toList s.queue (s.queueCall e)

/-- The outcome of a task that was enqueued for the step and the run of the request, as it was
    when it settled. -/
def Produced (created : List (String × StepQueueEnqueueParams))
    (settled : List (String × MutableTask)) (req : StepExecutionRequest)
    (outcome : AttemptOutcome) : Prop :=
  ∃ id p row, (id, p) ∈ created ∧ (id, row) ∈ settled ∧
    activeKey p.workflowId p.stepName = activeKey req.workflowId req.stepName ∧
    p.run.getD 1 = req.run ∧ outcome = taskOutcome req row

private def TaskOf (q : InMemoryStepQueue) (req : StepExecutionRequest) (taskId : String) : Prop :=
  IdIssued taskId q ∧ ∀ t, q.tasks.get taskId = some t →
    activeKey t.workflowId t.stepName = activeKey req.workflowId req.stepName

private def AttemptOk (created : List (String × StepQueueEnqueueParams))
    (settled : List (String × MutableTask)) (q : InMemoryStepQueue) (a : StepAttempt) : Prop :=
  match a.phase with
  | .enqueueing => True
  | .taking task => TaskOf q a.req a.taskId ∧
      Produced created settled a.req (taskOutcome a.req task)
  | .answered outcome => (∃ e, outcome = .gaveUp e) ∨ Produced created settled a.req outcome
  | _ => TaskOf q a.req a.taskId

section Steps

variable {created created' : List (String × StepQueueEnqueueParams)}
  {settled settled' : List (String × MutableTask)} {a : StepAttempt}

variable {req : StepExecutionRequest}

private theorem TaskOf.step (hq : Issued q) (o : StepQueueOp)
    {taskId : String} (h : TaskOf q req taskId) : TaskOf (stepQueue.next q o) req taskId := by
  refine ⟨step_idIssued o h.1, fun t hget => ?_⟩
  have hstep := step_outcome hq o taskId
  have hold := h.2
  rw [hget] at hstep
  generalize q.tasks.get taskId = before at hstep hold
  cases hstep with
  | same => exact hold t rfl
  | created ho hid hfree =>
    obtain ⟨n, hn, heq⟩ := h.1
    have hnumber := taskIdOf_inj (hid.symm.trans heq)
    omega
  | moved hopen hpair hrun hcons =>
    simp only [MutableTask.pair, Prod.mk.injEq] at hpair
    rw [hpair.1, hpair.2]
    exact hold _ rfl
  | consumed hsettled hopen at_ =>
    rename_i t₀
    exact hold t₀ rfl

private theorem Produced.append {outcome : AttemptOutcome}
    (h : Produced created settled req outcome) :
    Produced (created ++ created') (settled ++ settled') req outcome := by
  obtain ⟨id, p, row, hp, hrow, hrest⟩ := h
  exact ⟨id, p, row, mem_append_left _ hp, mem_append_left _ hrow, hrest⟩

private theorem AttemptOk.step (hq : Issued q) (o : StepQueueOp)
    (h : AttemptOk created settled q a) :
    AttemptOk (created ++ created') (settled ++ settled') (stepQueue.next q o) a := by
  unfold AttemptOk at h ⊢
  split at h
  · trivial
  · exact ⟨h.1.step hq o, h.2.append⟩
  · exact h.imp id Produced.append
  · exact h.step hq o

private theorem AttemptOk.append (h : AttemptOk created settled q a) :
    AttemptOk (created ++ created') (settled ++ settled') q a := by
  unfold AttemptOk at h ⊢
  split at h
  · trivial
  · exact ⟨h.1, h.2.append⟩
  · exact h.imp id Produced.append
  · exact h

private theorem enqueue_taskOf (hq : Issued q) (hindex : ActiveIndex q) (req : StepExecutionRequest)
    (attempt : Int) :
    TaskOf (q.enqueue (req.task attempt)).1 req (q.enqueue (req.task attempt)).2 := by
  rcases enqueue_cases q (req.task attempt) with ⟨existing, hactive, h⟩ | ⟨hfree, h⟩
  · -- the step has a task
    obtain ⟨t, hget, hkey, -⟩ := hindex.sound hactive
    rw [h]
    refine ⟨hq existing (by rw [hget]; rfl), fun t' hget' => ?_⟩
    cases hget.symm.trans hget'
    exact hkey
  · rw [h]
    refine ⟨⟨q.counter + 1, Nat.le_refl _, rfl⟩, fun t hget => ?_⟩
    simp only [get_set_self, Option.some.injEq] at hget
    subst hget
    rfl

private theorem produced_of_row (hrows : ∀ id t, q.tasks.get id = some t →
      RowHistory created settled id t) {taskId : String}
    (h : TaskOf q req taskId) {task : MutableTask} (hget : q.tasks.get taskId = some task)
    (hsettled : task.status.settled = true) (hrun : task.run = req.run) :
    Produced created settled req (taskOutcome req task) := by
  obtain ⟨⟨p, hp, hpair, hprun⟩, houtcome⟩ := hrows taskId task hget
  obtain ⟨row, hrow, heq⟩ := houtcome hsettled
  have hkey := h.2 task hget
  simp only [MutableTask.pair, Prod.mk.injEq] at hpair
  refine ⟨taskId, p, row, hp, hrow, ?_, ?_, ?_⟩
  · rw [← hpair.1, ← hpair.2]
    exact hkey
  · rw [← hprun, hrun]
  · -- consuming changes nothing of the outcome
    rw [heq]
    rfl

/-- A step of an attempt keeps what its phase says of its task; only reading a row yields an
outcome. -/
private theorem goOn_ok (hq : Issued q) (hindex : ActiveIndex q)
    (hrows : ∀ id t, q.tasks.get id = some t → RowHistory created settled id t)
    (h : AttemptOk created settled q a) (state : Option Durable.MutableWorkflow) :
    AttemptOk created settled
      (match a.call with
        | some o => stepQueue.next q o
        | none => q)
      (a.goOn q (match a.call with
        | some o => stepQueue.out q o
        | none => .none) state) := by
  have hkept : ∀ (o : Option StepQueueOp), TaskOf q a.req a.taskId →
      TaskOf (match o with
        | some o => stepQueue.next q o
        | none => q) a.req a.taskId := by
    intro o htask
    cases o with
    | none => exact htask
    | some o => exact htask.step hq o
  unfold AttemptOk at h
  cases hphase : a.phase with
  | enqueueing | dispatching =>
    have hcall : a.call = some (.enqueue (a.req.task a.attempt)) := by
      simp [call, hphase]
    rw [hcall]
    simp only [goOn, hphase]
    exact enqueue_taskOf hq hindex a.req a.attempt
  | waiting =>
    rw [hphase] at h
    have htask := hkept a.call h
    simp only [goOn, hphase, AttemptOk]
    by_cases hfirst : a.polls + 1 = 0
    · simp only [hfirst, if_true]
      exact htask
    · simp only [hfirst, if_false]
      exact htask
  | reading =>
    rw [hphase] at h
    have hcall : a.call = none := by simp [call, hphase]
    rw [hcall]
    simp only [goOn, hphase]
    cases hget : q.tasks.get a.taskId with
    | none => exact h
    | some task =>
      simp only
      by_cases hsettled : task.status.settled = true
      · simp only [hsettled, if_true]
        -- a row of another run is discarded
        by_cases hrun : task.run = a.req.run
        · simp only [hrun, ne_eq, not_true_eq_false, if_false]
          exact ⟨h, produced_of_row hrows h hget hsettled hrun⟩
        · simp only [hrun, ne_eq, not_false_eq_true, if_true]
          exact h
      · simp only [hsettled, Bool.false_eq_true, if_false]
        exact h
  | discarding =>
    rw [hphase] at h
    simp only [goOn, hphase]
    exact hkept a.call h
  | taking task =>
    rw [hphase] at h
    simp only [goOn, hphase]
    exact .inr h.2
  | checking =>
    rw [hphase] at h
    have hcall : a.call = none := by simp [call, hphase]
    rw [hcall]
    simp only [goOn, hphase]
    cases state with
    | none => exact .inl ⟨_, rfl⟩
    | some wf =>
      simp only
      split
      · exact .inl ⟨_, rfl⟩
      · split
        · exact h
        · exact h
  | failing =>
    rw [hphase] at h
    have htask := hkept a.call h
    obtain ⟨o, hcall⟩ : ∃ o, a.call = some o := by simp [call, hphase]
    rw [hcall] at htask ⊢
    simp only [goOn, hphase] at htask ⊢
    cases stepQueue.out q o with
    | done ok =>
      cases ok with
      | true => exact htask
      | false => exact .inl ⟨_, rfl⟩
    | none | taskId | claimed | swept | count => exact .inl ⟨_, rfl⟩
  | clearing =>
    simp only [goOn, hphase]
    exact .inl ⟨_, rfl⟩
  | answered outcome =>
    rw [hphase] at h
    simp only [goOn, hphase, AttemptOk]
    exact h

private theorem backOff_ok (h : AttemptOk created settled q a) :
    AttemptOk created settled q a.backOff := by
  have hsame := h
  unfold AttemptOk at h
  unfold backOff
  cases hphase : a.phase with
  | enqueueing | answered outcome => exact hsame
  | waiting =>
    rw [hphase] at h
    simp only
    split
    · simp only [AttemptOk]
      exact h
    · exact hsame
  | taking task =>
    rw [hphase] at h
    exact h.1
  | reading | discarding | dispatching | checking | failing | clearing =>
    rw [hphase] at h
    exact h

private theorem retry_ok (h : AttemptOk created settled q a) :
    AttemptOk created settled q a.retry := by
  unfold retry
  split
  · trivial
  · exact h

end Steps

private theorem run_attempts (events : List StepQueueEvent) :
    let ops := stepQueueSystem.trace queueCalls (.new config storage) events
    ∀ a ∈ (stepQueueSystem.run (.new config storage) events).attempts,
      AttemptOk (stepQueue.trace enqueuedBy (.new config) ops)
        (stepQueue.trace settledBy (.new config) ops) (stepQueue.run (.new config) ops) a := by
  induction events using List.reverseRecOn with
  | nil =>
    intro ops a ha
    exact absurd ha not_mem_nil
  | append_singleton events e ih =>
    intro ops a ha
    have hqueue := run_queue config storage events
    have hhistory := run_history config
      (stepQueueSystem.trace queueCalls (.new config storage) events)
    have hissued := run_issued config
      (stepQueueSystem.trace queueCalls (.new config storage) events)
    have hindex := run_activeIndex config
      (stepQueueSystem.trace queueCalls (.new config storage) events)
    simp only at ih
    rw [run_snoc] at ha
    simp only [ops, trace_snoc]
    generalize stepQueueSystem.trace queueCalls (.new config storage) events = past at *
    generalize stepQueueSystem.run (.new config storage) events = s at ih ha hqueue ⊢
    rw [trace_append, trace_append, run_append]
    rw [← hqueue] at hhistory hissued hindex ih ⊢
    -- the attempts that did not take the step
    have hothers : ∀ b ∈ s.attempts, AttemptOk
        (stepQueue.trace enqueuedBy (.new config) past ++
          stepQueue.trace enqueuedBy s.queue (queueCalls s e))
        (stepQueue.trace settledBy (.new config) past ++
          stepQueue.trace settledBy s.queue (queueCalls s e))
        (stepQueue.run s.queue (queueCalls s e)) b := by
      intro b hb
      unfold queueCalls
      cases s.queueCall e with
      | none => exact (ih b hb).append
      | some o => exact (ih b hb).step hissued o
    have hattempts : a ∈ s.nextAttempts e := ha
    cases e with
    | queue o | storage o => exact hothers a hattempts
    | executeStep config req =>
      cases mem_append.mp hattempts with
      | inl hold => exact hothers a hold
      | inr hnew =>
        cases mem_singleton.mp hnew
        trivial
    | step i =>
      cases hget : s.attempts[i]? with
      | none =>
        simp only [nextAttempts, hget] at hattempts
        exact hothers a hattempts
      | some b =>
        simp only [nextAttempts, hget] at hattempts
        rcases mem_or_eq_of_mem_set hattempts with hold | rfl
        · exact hothers a hold
        · have hown := goOn_ok hissued hindex hhistory (ih b (mem_of_getElem? hget))
            (s.storage.workflows.get b.req.workflowId)
          have hcalls : queueCalls s (.step i) = b.call.toList := by
            simp [queueCalls, queueCall, hget]
          rw [hcalls]
          cases hcall : b.call with
          | none | some o =>
            rw [hcall] at hown
            exact hown.append
    | throws i =>
      cases hget : s.attempts[i]? with
      | none =>
        simp only [nextAttempts, hget] at hattempts
        exact hothers a hattempts
      | some b =>
        simp only [nextAttempts, hget] at hattempts
        rcases mem_or_eq_of_mem_set hattempts with hold | rfl
        · exact hothers a hold
        · exact backOff_ok (hothers b (mem_of_getElem? hget))
    | retry i =>
      cases hget : s.attempts[i]? with
      | none =>
        simp only [nextAttempts, hget] at hattempts
        exact hothers a hattempts
      | some b =>
        simp only [nextAttempts, hget] at hattempts
        rcases mem_or_eq_of_mem_set hattempts with hold | rfl
        · exact hothers a hold
        · exact retry_ok (hothers b (mem_of_getElem? hget))

/-- **The outcomes of the step queue executor**, over every run of the system. -/
theorem queued_outcomes_of_run (config : InMemoryStepQueueConfig)
    (storage : Durable.InMemoryWorkflowStorage) (events : List StepQueueEvent) :
    let ops := stepQueueSystem.trace queueCalls (.new config storage) events
    (∀ a ∈ (stepQueueSystem.run (.new config storage) events).attempts,
      ∀ outcome, a.outcome = some outcome → (∀ e, outcome ≠ .gaveUp e) →
        ∃ id p row, (id, p) ∈ stepQueue.trace enqueuedBy (.new config) ops ∧
          (id, row) ∈ stepQueue.trace settledBy (.new config) ops ∧
          p.run.getD 1 = a.req.run ∧ outcome = taskOutcome a.req row ∧
          (Unambiguous a.req.workflowId a.req.stepName →
            p.workflowId = a.req.workflowId ∧ p.stepName = a.req.stepName)) ∧
    (stepQueue.trace consumedBy (.new config) ops).Nodup := by
  intro ops
  refine ⟨fun a ha outcome houtcome hanswer => ?_, run_consumed_nodup config ops⟩
  have hphase : a.phase = .answered outcome := by
    unfold StepAttempt.outcome at houtcome
    split at houtcome
    · rename_i hphase
      cases houtcome
      exact hphase
    · exact nomatch houtcome
  have hok := run_attempts config storage events a ha
  simp only [AttemptOk, hphase] at hok
  rcases hok with ⟨e, he⟩ | ⟨id, p, row, hp, hrow, hkey, hrun, houtcome⟩
  · exact absurd he (hanswer e)
  · refine ⟨id, p, row, hp, hrow, hrun, houtcome, fun hunambiguous => ?_⟩
    exact Prod.mk.inj (hunambiguous _ _ hkey)

/-- The first attempt waits a day for a worker and gives up; its task stays queued.  Two
    coordinators dispatch the second attempt, both adopt that task, and both answer the outcome
    that the worker then gives it: nothing was ever enqueued but the first attempt's task, and
    its outcome was consumed once. -/
theorem adopted_task_counterexample :
    let req (attempt : Int) : StepExecutionRequest := {
      workflowId := "w", stepName := "charge", input := .null, attempt := attempt }
    let events : List StepQueueEvent := [
      .storage (.createWorkflow
        { workflowId := "w", workflowName := "order", input := .null } none),
      .executeStep {} (req 1), .step 0, .step 0, .queue (.advance 86400000),
      .step 0, .step 0, .step 0, .step 0,
      .executeStep {} (req 2), .executeStep {} (req 2), .step 1, .step 2,
      .queue (.claim { workerId := "v", limit := 1 }),
      .queue (.complete {
        taskId := "task-1", claimToken := some "claim-2", result := .str "paid", durationMs := 5 }),
      .step 1, .step 1, .step 1, .step 2, .step 2, .step 2, .step 1, .step 2]
    let s := stepQueueSystem.run (.new {} (.new { instanceId := "i" })) events
    let ops := stepQueueSystem.trace queueCalls (.new {} (.new { instanceId := "i" })) events
    let paid : AttemptOutcome := .completed 1 (.str "paid") none (some "v")
    s.attempts.map (fun a => (a.attempt, a.outcome)) = [
      (1, some (.gaveUp ⟨"w", "charge", "task-1", .timeout 86400000⟩)), (2, some paid),
      (2, some paid)] ∧
    (stepQueue.trace enqueuedBy (.new {}) ops).map (fun created => (created.1, created.2.attempt)) =
      [("task-1", some 1)] ∧
    stepQueue.trace consumedBy (.new {}) ops = ["task-1"] := by
  decide

end Promin.Distributed

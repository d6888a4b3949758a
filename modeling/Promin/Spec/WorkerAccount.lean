import Promin.Distributed.Worker
import Promin.Spec.StepQueueSteps

/-!
# The worker's account of its tasks

The worker reads its load off one map, keyed by task id.
-/

namespace Promin.Distributed

open WorkerAnswer hiding none

open DefaultWorker InMemoryStepQueue JsMap ClaimLoop List Machine

/-! ## What a worker holds -/

/-- Tasks `taskFilter` has yet to see. -/
def ClaimLoop.todo : ClaimLoop → List StepTask
  | .filtering todo _ => todo
  | .stopped => []
  | .waiting => []

def ClaimLoop.inHand : ClaimLoop → List StepTask
  | .filtering todo accepted => todo ++ accepted
  | .stopped => []
  | .waiting => []

@[simp] theorem inHand_waiting : ClaimLoop.inHand .waiting = [] := rfl

@[simp] theorem inHand_stopped : ClaimLoop.inHand .stopped = [] := rfl

@[simp] theorem inHand_filtering (todo accepted : List StepTask) :
    ClaimLoop.inHand (.filtering todo accepted) = todo ++ accepted := rfl

def DefaultWorker.launched (w : DefaultWorker) : List StepTask := w.executions.map (·.task)

def DefaultWorker.runningHandlers (w : DefaultWorker) : Nat :=
  (w.executions.filter (·.handlerRunning)).length

/-- Every launched task is done with, its handler included. -/
def DefaultWorker.Idle (w : DefaultWorker) : Prop :=
  ∀ e ∈ w.executions, e.phase = .finished ∧ e.handlerRunning = false

instance (w : DefaultWorker) : Decidable w.Idle :=
  inferInstanceAs (Decidable (∀ e ∈ w.executions, _))

def WorkerAnswer.claimedTasks : WorkerAnswer → List StepTask
  | .claimed tasks => tasks
  | .none | .released _ | .stopped _ => []

def WorkerAnswer.releasedTasks : WorkerAnswer → List StepTask
  | .released task => [task]
  | .none | .claimed _ | .stopped _ => []

/-! ## The claim, and the condition -/

variable (config : WorkerConfig)

def claimedBy (w : DefaultWorker) (o : WorkerOp) : List StepTask :=
  ((worker config).out w o).claimedTasks

def releasedBy (w : DefaultWorker) (o : WorkerOp) : List StepTask :=
  ((worker config).out w o).releasedTasks

/-- An untimed `stop` that resolves does so in an idle worker. -/
def StopsIdle (w : DefaultWorker) (o : WorkerOp) : Prop :=
  (worker config).out w o = .stopped none → w.Idle

instance (w : DefaultWorker) (o : WorkerOp) : Decidable (StopsIdle config w o) :=
  inferInstanceAs (Decidable (_ → _))

/-- A run of a worker in which the handlers running at its end are within the
    concurrency, every untimed `stop` resolved in an idle worker, and every claimed task
    was launched or given back, or is in hand. -/
structure AccountsForTasks (queue : InMemoryStepQueueConfig) (ops : List WorkerOp) : Prop where
  capacity : ((worker config).run (.new queue) ops).runningHandlers ≤ config.concurrency
  stops : (worker config).Always (StopsIdle config) (.new queue) ops
  claims : ((worker config).trace (claimedBy config) (.new queue) ops).Perm
    (((worker config).run (.new queue) ops).launched ++
      (worker config).trace (releasedBy config) (.new queue) ops ++
      ((worker config).run (.new queue) ops).loop.inHand)

/-- The steps under which the account holds: no claim returns a task whose earlier
    execution is active, the filter does not throw, no attempt times out on a handler
    that is running, and the loop is not started again under a pending `stop`. -/
def Orderly (w : DefaultWorker) : WorkerOp → Prop
  | .start => ∀ call ∈ w.stops, call.phase = .resolved
  | .claimOnce => w.loop = .waiting →
    ∀ task ∈ (w.queue.claim (w.claimParams config)).2, w.active.get task.id = none
  | .applyTaskFilter .throws => w.loop.todo = []
  | .attemptTimesOut i => ∀ e ∈ w.executions[i]?, e.handlerRunning = false
  | _ => True

instance decidableOrderly (w : DefaultWorker) : (o : WorkerOp) → Decidable (Orderly config w o)
  | .start => inferInstanceAs (Decidable (∀ call ∈ w.stops, call.phase = .resolved))
  | .claimOnce => inferInstanceAs (Decidable (_ → ∀ task ∈ _, _))
  | .applyTaskFilter .throws => inferInstanceAs (Decidable (_ = []))
  | .attemptTimesOut i => inferInstanceAs (Decidable (∀ e ∈ w.executions[i]?, _))
  | .applyTaskFilter .accepts | .applyTaskFilter .rejects | .queue _ | .launch | .exitLoop
  | .runHandler _ _ | .handlerEnds _ _ | .heartbeatTask _ | .commit _ | .finish _ | .stop _
  | .drained _ | .stopTimesOut _ | .deregistered _ => isTrue trivial

/-- The map of a worker tells the truth about its executions. -/
structure Accounts (w : DefaultWorker) : Prop where
  issued : Issued w.queue
  keyed : Keyed w.queue
  active_of_live : ∀ i e, w.executions[i]? = some e → e.phase ≠ .finished →
    w.active.get e.task.id = some i
  live_of_active : ∀ id i, w.active.get id = some i →
    ∃ e, w.executions[i]? = some e ∧ e.task.id = id ∧ e.phase ≠ .finished
  handling : ∀ e ∈ w.executions, e.handlerRunning = true → e.phase = .handling
  capacity : w.active.size + w.loop.inHand.length ≤ config.concurrency
  apart : (w.loop.inHand.map (·.id)).Nodup
  inactive : ∀ task ∈ w.loop.inHand, w.active.get task.id = none
  down : ∀ call ∈ w.stops, call.phase ≠ .resolved → call.phase ≠ .awaitingLoop →
    w.loop = .stopped
  empty : ∀ call ∈ w.stops, call.phase = .deregistering → call.timeoutMs = none →
    w.active.size = 0

variable {config} {w : DefaultWorker}

theorem accounts_new (queue : InMemoryStepQueueConfig) : Accounts config (.new queue) where
  issued := issued_new queue
  keyed := by simp [Keyed, DefaultWorker.new, InMemoryStepQueue.new]
  active_of_live := by simp [DefaultWorker.new]
  live_of_active := by simp [DefaultWorker.new]
  handling := by simp [DefaultWorker.new]
  capacity := by simp [DefaultWorker.new, JsMap.size, JsMap.empty]
  apart := by simp [DefaultWorker.new]
  inactive := by simp [DefaultWorker.new]
  down := by simp [DefaultWorker.new]
  empty := by simp [DefaultWorker.new]

theorem Accounts.queue (h : Accounts config w) (o : StepQueueOp) :
    Accounts config { w with queue := stepQueue.next w.queue o } :=
  { h with issued := step_issued h.issued o, keyed := step_keyed h.issued h.keyed o }

variable {f : Execution → Execution}

private theorem getElem?_modify_cases {l : List Execution} {i j : Nat}
    {e' : Execution} (h : (l.modify i f)[j]? = some e') :
    ∃ e, l[j]? = some e ∧ ((i ≠ j ∧ e' = e) ∨ (i = j ∧ e' = f e)) := by
  rw [List.getElem?_modify] at h
  obtain ⟨e, he, rfl⟩ := Option.map_eq_some_iff.mp h
  refine ⟨e, he, ?_⟩
  by_cases hij : i = j
  · right
    simp [hij]
  · left
    simp [hij]

theorem Accounts.updateExecution (h : Accounts config w) (i : Nat)
    (htask : ∀ e, (f e).task = e.task)
    (hlive : ∀ e ∈ w.executions[i]?, (f e).phase = .finished ↔ e.phase = .finished)
    (hhandling : ∀ e ∈ w.executions[i]?, (e.handlerRunning = true → e.phase = .handling) →
      (f e).handlerRunning = true → (f e).phase = .handling) :
    Accounts config (w.updateExecution i f) :=
  { h with
    active_of_live := by
      intro j e' he' hphase
      obtain ⟨e, he, ⟨-, rfl⟩ | ⟨rfl, rfl⟩⟩ := getElem?_modify_cases he'
      · exact h.active_of_live j e' he hphase
      · rw [htask]
        exact h.active_of_live i e he (mt (hlive e he).mpr hphase)
    live_of_active := by
      intro id j hactive
      obtain ⟨e, he, hid, hphase⟩ := h.live_of_active id j hactive
      show ∃ e', (w.executions.modify i f)[j]? = some e' ∧ _
      rw [List.getElem?_modify, he]
      by_cases hij : i = j
      · subst hij
        refine ⟨f e, by simp, ?_, mt (hlive e he).mp hphase⟩
        rw [htask, hid]
      · exact ⟨e, by simp [hij], hid, hphase⟩
    handling := by
      intro e' he'
      obtain ⟨j, hj⟩ := mem_iff_getElem?.mp he'
      obtain ⟨e, he, ⟨-, rfl⟩ | ⟨rfl, rfl⟩⟩ := getElem?_modify_cases hj
      · exact h.handling e' (mem_of_getElem? he)
      · exact hhandling e he (h.handling e (mem_of_getElem? he)) }

/-! ## The claim loop -/

section

variable (h : Accounts config w)
include h

theorem Accounts.start (hstops : ∀ call ∈ w.stops, call.phase = .resolved) :
    Accounts config w.start := by
  unfold DefaultWorker.start
  split
  · rename_i hloop
    have hcapacity := h.capacity
    rw [hloop] at hcapacity
    exact { h with
      capacity := hcapacity
      apart := by simp
      inactive := by simp
      down := fun call hcall hphase => absurd (hstops call hcall) hphase }
  · exact h

theorem Accounts.claimOnce (hfree : w.loop = .waiting →
      ∀ task ∈ (w.queue.claim (w.claimParams config)).2, w.active.get task.id = none) :
    Accounts config (w.claimOnce config).1 := by
  unfold DefaultWorker.claimOnce
  split
  · rename_i hwaiting
    split
    · exact h
    · rename_i hslots
      have hqueue := h.queue (.claim (w.claimParams config))
      have hlen := claim_length w.queue (w.claimParams config)
      exact { hqueue with
        capacity := by
          simp only [claimParams, free] at hlen hslots
          simp only [inHand_filtering, append_nil]
          simp only [claimParams, free]
          omega
        apart := by simpa using claim_ids_nodup h.keyed (w.claimParams config)
        inactive := by simpa using hfree hwaiting.1
        down := by
          intro call hcall hphase hawaiting
          have hdown := h.down call hcall hphase hawaiting
          rw [hwaiting.1] at hdown
          cases hdown }
  · exact h

theorem Accounts.narrow {loop : ClaimLoop}
    (hpart : loop.inHand.Subperm w.loop.inHand) (hloop : w.loop ≠ .stopped) :
    Accounts config { w with loop := loop } :=
  { h with
    capacity := Nat.le_trans (Nat.add_le_add_left hpart.length_le _) h.capacity
    apart := by
      obtain ⟨part, hperm, hsub⟩ := hpart
      exact (hperm.map (·.id)).nodup_iff.mp ((hsub.map (·.id)).nodup h.apart)
    inactive := fun task htask => h.inactive task (hpart.subset htask)
    down := fun call hcall hphase hawaiting => absurd (h.down call hcall hphase hawaiting) hloop }

theorem Accounts.applyTaskFilter (verdict : FilterVerdict) :
    Accounts config (w.applyTaskFilter verdict).1 := by
  unfold DefaultWorker.applyTaskFilter
  cases hloop : w.loop with
  | stopped => exact h
  | waiting => exact h
  | filtering todo accepted =>
    cases todo with
    | nil => exact h
    | cons task todo =>
      have hne : w.loop ≠ .stopped := by simp [hloop]
      have hrest : (todo ++ accepted).Subperm w.loop.inHand := by
        rw [hloop]
        exact (sublist_cons_self task (todo ++ accepted)).subperm
      cases verdict with
      | accepts =>
        have hperm : (todo ++ (accepted ++ [task])).Perm (task :: todo ++ accepted) := by
          rw [← append_assoc]
          exact perm_append_singleton task (todo ++ accepted)
        exact h.narrow (by simpa [hloop] using hperm.subperm) hne
      | rejects =>
        have hqueue := h.queue (.release task.id (task.claimToken.getD ""))
        exact hqueue.narrow hrest hne
      | throws => exact h.narrow (nil_subperm) hne

/-- A claimed task that starts is counted as active and no longer as in hand. -/
theorem Accounts.launch {task : StepTask} {rest : List StepTask}
    (hloop : w.loop = .filtering [] (task :: rest)) :
    Accounts config { w.launch task with loop := .filtering [] rest } := by
  have hapart := h.apart
  have hcapacity := h.capacity
  have hinactive := h.inactive
  simp only [hloop, inHand_filtering, nil_append, map_cons,
    nodup_cons, mem_map, not_exists, not_and, length_cons] at hapart hcapacity
  simp only [hloop, inHand_filtering, nil_append, forall_mem_cons]
    at hinactive
  -- a loop that filters is not waited for
  have hdown : ∀ call ∈ w.stops, call.phase ≠ .resolved → ¬ call.phase ≠ .awaitingLoop := by
    intro call hcall hphase hawaiting
    have hstopped := h.down call hcall hphase hawaiting
    rw [hloop] at hstopped
    cases hstopped
  exact { h with
    active_of_live := by
      intro i e he hphase
      simp only [DefaultWorker.launch, List.getElem?_append, List.getElem?_singleton] at he ⊢
      split at he
      · have hactive := h.active_of_live i e he hphase
        have hne : task.id ≠ e.task.id := by
          intro heq
          rw [← heq, hinactive.1] at hactive
          cases hactive
        rw [get_set_ne _ _ hne]
        exact hactive
      · split at he
        · cases he
          rw [get_set_self]
          congr 1
          omega
        · cases he
    live_of_active := by
      intro id i hactive
      simp only [DefaultWorker.launch, get_set] at hactive ⊢
      split at hactive
      · rename_i hid
        cases hactive
        exact ⟨{ task := task, startTime := w.queue.now }, by simp, hid, by simp⟩
      · obtain ⟨e, he, hrest⟩ := h.live_of_active id i hactive
        refine ⟨e, ?_, hrest⟩
        rw [List.getElem?_append_left (List.getElem?_eq_some_iff.mp he).1]
        exact he
    handling := by
      intro e he
      simp only [DefaultWorker.launch, mem_append, mem_singleton] at he
      rcases he with he | rfl
      · exact h.handling e he
      · simp
    capacity := by
      simp only [DefaultWorker.launch, size_set_of_none _ hinactive.1,
        inHand_filtering, nil_append]
      omega
    apart := by simpa using hapart.2
    inactive := by
      intro other hother
      simp only [inHand_filtering, nil_append] at hother
      have hne : task.id ≠ other.id := fun heq => hapart.1 other hother heq.symm
      simp only [DefaultWorker.launch, get_set_ne _ _ hne]
      exact hinactive.2 other hother
    down := fun call hcall hphase hawaiting => absurd hawaiting (hdown call hcall hphase)
    empty := by
      intro call hcall hphase
      exact absurd (by simp [hphase]) (hdown call hcall (by simp [hphase])) }

end

private theorem foldl_launch_loop (tasks : List StepTask) (w : DefaultWorker)
    (loop loop' : ClaimLoop) :
    { tasks.foldl launch { w with loop := loop } with loop := loop' } =
      { tasks.foldl launch w with loop := loop' } := by
  induction tasks generalizing w with
  | nil => rfl
  | cons task rest ih => exact ih (w.launch task)

private theorem Accounts.launchAll {accepted : List StepTask} (h : Accounts config w)
    (hloop : w.loop = .filtering [] accepted) :
    Accounts config { accepted.foldl DefaultWorker.launch w with loop := .waiting } := by
  induction accepted generalizing w with
  | nil => exact h.narrow nil_subperm (by simp [hloop])
  | cons task rest ih =>
    have hrest := ih (h.launch hloop) rfl
    rw [foldl_launch_loop] at hrest
    exact hrest

theorem Accounts.launchAccepted (h : Accounts config w) : Accounts config w.launchAccepted := by
  unfold DefaultWorker.launchAccepted
  split
  · rename_i accepted hloop
    exact h.launchAll hloop
  · exact h

/-! ## Stop calls -/

theorem Accounts.withStops (h : Accounts config w) {stops : List StopCall}
    (hdown : ∀ call ∈ stops, call.phase ≠ .resolved → call.phase ≠ .awaitingLoop →
      w.loop = .stopped)
    (hempty : ∀ call ∈ stops, call.phase = .deregistering → call.timeoutMs = none →
      w.active.size = 0) :
    Accounts config { w with stops := stops } :=
  { h with down := hdown, empty := hempty }

theorem Accounts.exitLoop (h : Accounts config w) : Accounts config w.exitLoop := by
  unfold DefaultWorker.exitLoop
  split
  · rename_i hwaiting
    have hcapacity := h.capacity
    rw [hwaiting.1] at hcapacity
    exact { h with
      capacity := hcapacity
      apart := by simp
      inactive := by simp
      down := fun _ _ _ _ => rfl
      empty := by
        intro call hcall hphase htimeout
        obtain ⟨old, hold, rfl⟩ := mem_map.mp hcall
        split at hphase
        · cases hphase
        · rename_i hawaiting
          rw [if_neg hawaiting] at htimeout
          exact h.empty old hold hphase htimeout }
  · exact h

theorem Accounts.stop (h : Accounts config w) (timeoutMs : Option Int) :
    Accounts config (w.stop timeoutMs) := by
  have hstops : Accounts config { w with
      stops := w.stops ++
        [{ timeoutMs := timeoutMs
           phase := if w.loop = .stopped then .draining else .awaitingLoop }] } := by
    apply h.withStops
    · intro call hcall hphase hawaiting
      rcases mem_append.mp hcall with hcall | hcall
      · exact h.down call hcall hphase hawaiting
      · rw [mem_singleton.mp hcall] at hawaiting
        by_contra hloop
        simp [hloop] at hawaiting
    · intro call hcall hphase
      rcases mem_append.mp hcall with hcall | hcall
      · exact h.empty call hcall hphase
      · rw [mem_singleton.mp hcall] at hphase
        simp only at hphase
        split at hphase <;> cases hphase
  exact { hstops with }

private theorem toStopPhase_cases {w : DefaultWorker} {k : Nat} {phase : StopPhase}
    {call' : StopCall} (h : call' ∈ (w.toStopPhase k phase).stops) :
    call' ∈ w.stops ∨ ∃ call, w.stops[k]? = some call ∧ call' = { call with phase := phase } := by
  obtain ⟨j, hj⟩ := mem_iff_getElem?.mp h
  simp only [toStopPhase, List.getElem?_modify] at hj
  obtain ⟨call, hcall, rfl⟩ := Option.map_eq_some_iff.mp hj
  by_cases hkj : k = j
  · subst hkj
    exact .inr ⟨call, hcall, by simp⟩
  · left
    simpa [hkj] using mem_of_getElem? hcall

theorem Accounts.toStopPhase (h : Accounts config w) {k : Nat} {phase : StopPhase}
    {call : StopCall} (hcall : w.stops[k]? = some call) (hloop : w.loop = .stopped)
    (hempty : phase = .deregistering → call.timeoutMs = none → w.active.size = 0) :
    Accounts config (w.toStopPhase k phase) := by
  apply h.withStops
  · exact fun _ _ _ _ => hloop
  · intro call' hcall' hphase htimeout
    rcases toStopPhase_cases hcall' with hold | ⟨call₀, hcall₀, rfl⟩
    · exact h.empty call' hold hphase htimeout
    · rw [hcall] at hcall₀
      cases hcall₀
      exact hempty hphase htimeout

theorem Accounts.drained (h : Accounts config w) (k : Nat) : Accounts config (w.drained k) := by
  unfold DefaultWorker.drained
  split
  · rename_i call hcall
    split
    · rename_i hphase
      have hloop := h.down call (mem_of_getElem? hcall) (by simp [hphase]) (by simp [hphase])
      apply h.toStopPhase hcall hloop
      intro hnext _
      split at hnext
      · cases hnext
      · omega
    · exact h
  · exact h

theorem Accounts.deregistered (h : Accounts config w) (k : Nat) :
    Accounts config (w.deregistered k).1 := by
  unfold DefaultWorker.deregistered
  split
  · rename_i call hcall
    split
    · rename_i hphase
      have hloop := h.down call (mem_of_getElem? hcall) (by simp [hphase]) (by simp [hphase])
      exact h.toStopPhase hcall hloop (by simp)
    · exact h
  · exact h

/-! ## Executions -/

@[simp] private theorem begun_task (w : DefaultWorker) (hookError : Option String) (e : Execution) :
    (w.begun config hookError e).task = e.task := by
  unfold begun
  split <;> [split <;> [rfl; split <;> rfl]; rfl]

@[simp] private theorem ended_task (w : DefaultWorker) (result : HandlerResult) (e : Execution) :
    (w.ended result e).task = e.task := by
  unfold ended
  split <;> rfl

@[simp] private theorem timedOut_task (w : DefaultWorker) (e : Execution) :
    (w.timedOut e).task = e.task := by
  unfold timedOut
  split <;> [split <;> rfl; rfl]

section

variable (h : Accounts config w)
include h

theorem Accounts.runHandler (i : Nat) (hookError : Option String) :
    Accounts config (w.runHandler config i hookError) := by
  apply h.updateExecution i (begun_task w hookError)
  · intro e _
    unfold begun
    split
    · rename_i hphase
      split <;> [simp [hphase]; split <;> simp [hphase]]
    · rfl
  · intro e _ hhandling
    unfold begun
    split
    · rename_i hphase
      have hnot : e.handlerRunning ≠ true := fun hrun => by simp [hhandling hrun] at hphase
      split <;> [simp [hnot]; split <;> simp [hnot]]
    · exact hhandling

theorem Accounts.handlerEnds (i : Nat) (result : HandlerResult) :
    Accounts config (w.handlerEnds i result) := by
  apply h.updateExecution i (ended_task w result)
  · intro e _
    unfold ended
    split
    · by_cases hphase : e.phase = .handling <;> simp [hphase]
    · rfl
  · intro e _ hhandling
    unfold ended
    split
    · simp
    · exact hhandling

theorem Accounts.attemptTimesOut (i : Nat)
    (hquiet : ∀ e ∈ w.executions[i]?, e.handlerRunning = false) :
    Accounts config (w.attemptTimesOut i) := by
  apply h.updateExecution i (timedOut_task w)
  · intro e _
    unfold timedOut
    split
    · by_cases hphase : e.phase = .handling <;> simp [hphase]
    · rfl
  · intro e he hhandling
    unfold timedOut
    split
    · split
      · simp [hquiet e he]
      · exact hhandling
    · exact hhandling

theorem Accounts.heartbeatTask (i : Nat) :
    Accounts config (w.heartbeatTask i) := by
  unfold DefaultWorker.heartbeatTask
  split
  · exact h
  · rename_i e he
    split
    · exact h
    · have hqueue := h.queue (.heartbeat e.task.id e.task.claimToken)
      apply hqueue.updateExecution
      · exact fun e => rfl
      · exact fun e _ => Iff.rfl
      · exact fun e _ hhandling => hhandling

/-- Whatever the worker tells the queue about the outcome, it is one call on the queue. -/
theorem Accounts.commit (i : Nat) : Accounts config (w.commit i) := by
  unfold DefaultWorker.commit
  split
  · exact h
  · rename_i e he
    cases hphase : e.phase with
    | decided outcome =>
      have hsettle : ∀ queue, Accounts config { w with queue := queue } →
          Accounts config ({ w with queue := queue }.updateExecution i
            fun e => { e with phase := .settled }) := by
        intro queue hqueue
        apply hqueue.updateExecution
        · exact fun e => rfl
        · intro e' he'
          rw [Option.mem_unique he' he]
          simp [hphase]
        · intro e' he' hhandling
          rw [Option.mem_unique he' he] at hhandling ⊢
          simp [hphase] at hhandling ⊢
          exact hhandling
      apply hsettle
      split
      · exact h
      · split
        · exact h
        · rename_i token value durationMs _
          exact h.queue (.complete
            { taskId := e.task.id, claimToken := some token
              result := value, durationMs := durationMs })
        · rename_i token error errorTag durationMs _
          exact h.queue (.fail
            { taskId := e.task.id, claimToken := some token
              error := error, errorTag := errorTag, durationMs := durationMs })
    | launched | handling | settled | finished => exact h


theorem Accounts.resolveIdle : Accounts config w.resolveIdle := by
  unfold DefaultWorker.resolveIdle
  split
  · rename_i hidle
    apply h.withStops
    · intro call hcall hphase hawaiting
      obtain ⟨old, hold, rfl⟩ := mem_map.mp hcall
      split at hphase
      · rename_i hwait
        exact h.down old hold (by simp [hwait]) (by simp [hwait])
      · rename_i hwait
        rw [if_neg hwait] at hawaiting
        exact h.down old hold hphase hawaiting
    · exact fun _ _ _ _ => hidle
  · exact h

/-- The end of an execution takes its own entry off the map. -/
theorem Accounts.finish (i : Nat) : Accounts config (w.finish i) := by
  unfold DefaultWorker.finish
  split
  · exact h
  · rename_i e he
    split
    · rename_i hphase
      have hactive := h.active_of_live i e he (by simp [hphase])
      have hsize := size_delete_of_get hactive
      apply Accounts.resolveIdle
      exact { h with
        active_of_live := by
          intro j e' he' hlive
          obtain ⟨old, hold, ⟨hij, rfl⟩ | ⟨rfl, rfl⟩⟩ := getElem?_modify_cases he'
          · have hother := h.active_of_live j e' hold hlive
            -- a live execution keeps its own entry
            have hne : e.task.id ≠ e'.task.id := by
              intro heq
              rw [← heq, hactive] at hother
              exact hij (Option.some.inj hother)
            show (w.active.delete e.task.id).get e'.task.id = some j
            rw [get_delete_ne _ hne]
            exact hother
          · simp at hlive
        live_of_active := by
          intro id j hget
          simp only [DefaultWorker.updateExecution, get_delete] at hget ⊢
          split at hget
          · cases hget
          · rename_i hne
            obtain ⟨e', he', hid, hlive⟩ := h.live_of_active id j hget
            refine ⟨e', ?_, hid, hlive⟩
            have hij : i ≠ j := by
              intro hij
              subst hij
              rw [he] at he'
              cases he'
              exact hne hid
            simp [hij, he']
        handling := by
          intro e' he'
          obtain ⟨j, hj⟩ := mem_iff_getElem?.mp he'
          obtain ⟨old, hold, ⟨-, rfl⟩ | ⟨rfl, rfl⟩⟩ := getElem?_modify_cases hj
          · exact h.handling e' (mem_of_getElem? hold)
          · intro hrunning
            rw [he] at hold
            cases hold
            have hhandling := h.handling e (mem_of_getElem? he) hrunning
            rw [hphase] at hhandling
            cases hhandling
        capacity := by
          have hcapacity := h.capacity
          simp only [DefaultWorker.updateExecution]
          omega
        inactive := by
          intro task htask
          simp only [DefaultWorker.updateExecution, get_delete]
          split
          · rfl
          · exact h.inactive task htask
        empty := by
          intro call hcall hdereg htimeout
          have hempty := h.empty call hcall hdereg htimeout
          simp only [DefaultWorker.updateExecution]
          omega }
    · exact h


private theorem Accounts.releaseExecution (i : Nat) :
    Accounts config (w.releaseExecution i) := by
  unfold DefaultWorker.releaseExecution
  split
  · exact h
  · rename_i e he
    have hqueue := h.queue (.release e.task.id (e.task.claimToken.getD ""))
    apply hqueue.updateExecution
    · exact fun e => rfl
    · exact fun e _ => Iff.rfl
    · exact fun e _ hhandling => hhandling

end

private theorem launched_updateExecution (w : DefaultWorker) (i : Nat)
    (htask : ∀ e, (f e).task = e.task) : (w.updateExecution i f).launched = w.launched := by
  apply ext_getElem?
  intro j
  simp only [launched, updateExecution, List.getElem?_map,
    List.getElem?_modify]
  cases w.executions[j]? with
  | none => rfl
  | some e =>
    by_cases hij : i = j
    · simp [hij, htask]
    · simp [hij]

private theorem releaseExecution_rest (w : DefaultWorker) (i : Nat) :
    (w.releaseExecution i).stops = w.stops ∧ (w.releaseExecution i).loop = w.loop ∧
      (w.releaseExecution i).launched = w.launched := by
  unfold releaseExecution
  split
  · simp
  · refine ⟨rfl, rfl, ?_⟩
    exact launched_updateExecution { w with queue := _ } i fun _ => rfl

private theorem releaseAll_rest (is : List Nat) (w : DefaultWorker) :
    (is.foldl releaseExecution w).stops = w.stops ∧
      (is.foldl releaseExecution w).loop = w.loop ∧
      (is.foldl releaseExecution w).launched = w.launched := by
  induction is generalizing w with
  | nil => simp
  | cons i rest ih =>
    have hone := releaseExecution_rest w i
    have hrest := ih (w.releaseExecution i)
    simp only [foldl_cons]
    rw [hrest.1, hrest.2.1, hrest.2.2]
    exact hone

private theorem Accounts.releaseAll (h : Accounts config w) (is : List Nat) :
    Accounts config (is.foldl DefaultWorker.releaseExecution w) := by
  induction is generalizing w with
  | nil => exact h
  | cons i rest ih => exact ih (h.releaseExecution i)

theorem Accounts.stopTimesOut (h : Accounts config w) (k : Nat) :
    Accounts config (w.stopTimesOut k) := by
  unfold DefaultWorker.stopTimesOut
  split
  · rename_i call hcall
    split
    · rename_i hphase
      have hloop := h.down call (mem_of_getElem? hcall) (by simp [hphase.1])
        (by simp [hphase.1])
      have hrest := releaseAll_rest w.active.values w
      have hreleased : Accounts config w.releaseUnfinished := h.releaseAll w.active.values
      have hcall' : w.releaseUnfinished.stops[k]? = some call := by
        rw [← hcall]
        exact congrArg (·[k]?) hrest.1
      have hloop' : w.releaseUnfinished.loop = .stopped := by
        rw [← hloop]
        exact hrest.2.1
      apply hreleased.toStopPhase hcall' hloop'
      -- The call is a timed one.
      intro _ htimeout
      simp [htimeout] at hphase
    · exact h
  · exact h

/-! ## Steps and runs -/

theorem step_accounts (h : Accounts config w) (o : WorkerOp) (hc : Orderly config w o) :
    Accounts config ((worker config).next w o) := by
  cases o with
  | queue o => exact h.queue o
  | start => exact h.start hc
  | claimOnce => exact h.claimOnce hc
  | applyTaskFilter verdict => exact h.applyTaskFilter verdict
  | launch => exact h.launchAccepted
  | exitLoop => exact h.exitLoop
  | runHandler i hookError => exact h.runHandler i hookError
  | handlerEnds i result => exact h.handlerEnds i result
  | attemptTimesOut i => exact h.attemptTimesOut i hc
  | heartbeatTask i => exact h.heartbeatTask i
  | commit i => exact h.commit i
  | finish i => exact h.finish i
  | stop timeoutMs => exact h.stop timeoutMs
  | drained k => exact h.drained k
  | stopTimesOut k => exact h.stopTimesOut k
  | deregistered k => exact h.deregistered k

theorem run_accounts (queue : InMemoryStepQueueConfig) {ops : List WorkerOp}
    (hc : (worker config).Always (Orderly config) (.new queue) ops) :
    Accounts config ((worker config).run (.new queue) ops) :=
  run_induction_always (P := Accounts config) (fun _ o hc h => step_accounts h o hc) hc
    (accounts_new queue)

theorem Accounts.runningHandlers_le (h : Accounts config w) :
    w.runningHandlers ≤ w.active.size := by
  have hactive : ∀ i e, w.executions[i]? = some e → e.handlerRunning = true →
      w.active.get e.task.id = some i := by
    intro i e he hrunning
    have hphase := h.handling e (mem_of_getElem? he) hrunning
    exact h.active_of_live i e he (by simp [hphase])
  have hapart : w.executions.Pairwise fun e e' =>
      e.handlerRunning = true → e'.handlerRunning = true → e.task.id ≠ e'.task.id := by
    rw [pairwise_iff_getElem]
    intro i j hi hj hij he he' hid
    have hi' := hactive i _ (List.getElem?_eq_getElem hi) he
    have hj' := hactive j _ (List.getElem?_eq_getElem hj) he'
    rw [hid, hj'] at hi'
    have := Option.some.inj hi'
    omega
  have hnodup : ((w.executions.filter (·.handlerRunning)).map (·.task.id)).Nodup := by
    rw [List.Nodup, pairwise_map, pairwise_filter]
    exact hapart.imp fun h he he' => h he he'
  have hle := length_le_size (m := w.active) hnodup (by
    intro id hid
    obtain ⟨e, he, rfl⟩ := mem_map.mp hid
    obtain ⟨he, hrunning⟩ := mem_filter.mp he
    obtain ⟨i, hi⟩ := mem_iff_getElem?.mp he
    rw [hactive i e hi hrunning]
    rfl)
  rw [length_map] at hle
  exact hle

theorem Accounts.idle (h : Accounts config w) (hsize : w.active.size = 0) : w.Idle := by
  intro e he
  obtain ⟨i, hi⟩ := mem_iff_getElem?.mp he
  have hfinished : e.phase = .finished := by
    by_contra hlive
    have hactive := h.active_of_live i e hi hlive
    have hpos := size_delete_of_get hactive
    omega
  refine ⟨hfinished, ?_⟩
  by_contra hrunning
  have hphase := h.handling e he (by simpa using hrunning)
  rw [hfinished] at hphase
  cases hphase

theorem Accounts.stopsIdle (h : Accounts config w) (o : WorkerOp) : StopsIdle config w o := by
  intro hout
  cases o with
  | deregistered k =>
    simp only [out, worker, DefaultWorker.deregistered] at hout
    split at hout
    · rename_i call hcall
      split at hout
      · rename_i hphase
        simp only [stopped.injEq] at hout
        exact h.idle (h.empty call (mem_of_getElem? hcall) hphase hout)
      · cases hout
    · cases hout
  | claimOnce =>
    simp only [out, worker, DefaultWorker.claimOnce] at hout
    split at hout <;> [split at hout <;> cases hout; cases hout]
  | applyTaskFilter verdict =>
    simp only [out, worker, DefaultWorker.applyTaskFilter] at hout
    split at hout <;> [cases verdict <;> cases hout; cases hout]
  | queue | start | launch | exitLoop | runHandler | handlerEnds | attemptTimesOut
  | heartbeatTask | commit | finish | stop | drained | stopTimesOut => cases hout

/-! ## The balance of claimed tasks -/

def DefaultWorker.kept (w : DefaultWorker) : List StepTask := w.launched ++ w.loop.inHand

private theorem kept_updateExecution (w : DefaultWorker) (i : Nat)
    (htask : ∀ e, (f e).task = e.task) : (w.updateExecution i f).kept = w.kept := by
  rw [kept, launched_updateExecution w i htask]
  rfl

private theorem kept_next (w : DefaultWorker) (o : WorkerOp)
    (hclaim : o ≠ .claimOnce) (hfilter : ∀ verdict, o ≠ .applyTaskFilter verdict)
    (hlaunch : o ≠ .launch) : ((worker config).next w o).kept = w.kept := by
  cases o with
  | claimOnce => exact absurd rfl hclaim
  | applyTaskFilter verdict => exact absurd rfl (hfilter verdict)
  | launch => exact absurd rfl hlaunch
  | queue | stop => rfl
  | start =>
    simp only [Machine.next, worker, DefaultWorker.start]
    split <;> [(rename_i hloop; simp [kept, launched, hloop]); rfl]
  | exitLoop =>
    simp only [Machine.next, worker, DefaultWorker.exitLoop]
    split <;> [(rename_i hloop; simp [kept, launched, hloop]); rfl]
  | runHandler i hookError => exact kept_updateExecution w i (begun_task w hookError)
  | handlerEnds i result => exact kept_updateExecution w i (ended_task w result)
  | attemptTimesOut i => exact kept_updateExecution w i (timedOut_task w)
  | heartbeatTask i =>
    simp only [Machine.next, worker, DefaultWorker.heartbeatTask]
    split <;> [rfl; split <;> [rfl; exact kept_updateExecution { w with queue := _ } i
      fun _ => rfl]]
  | commit i =>
    simp only [Machine.next, worker, DefaultWorker.commit]
    split
    · rfl
    · rename_i e he
      cases e.phase with
      | decided outcome => exact kept_updateExecution { w with queue := _ } i fun _ => rfl
      | launched | handling | settled | finished => rfl
  | finish i =>
    simp only [Machine.next, worker, DefaultWorker.finish]
    split
    · rfl
    · rename_i e he
      split
      · have hkept := kept_updateExecution { w with active := w.active.delete e.task.id } i
          (f := fun e => { e with phase := .finished }) fun _ => rfl
        unfold resolveIdle
        split <;> exact hkept
      · rfl
  | drained k =>
    simp only [Machine.next, worker, DefaultWorker.drained]
    split <;> [split <;> rfl; rfl]
  | stopTimesOut k =>
    simp only [Machine.next, worker, DefaultWorker.stopTimesOut]
    split
    · split
      · have hrest := releaseAll_rest w.active.values w
        show (w.releaseUnfinished.launched ++ w.releaseUnfinished.loop.inHand : List StepTask) = _
        rw [releaseUnfinished, hrest.2.1, hrest.2.2]
        rfl
      · rfl
    · rfl
  | deregistered k =>
    simp only [Machine.next, worker, DefaultWorker.deregistered]
    split <;> [split <;> rfl; rfl]

private theorem launched_foldl (tasks : List StepTask) (w : DefaultWorker) :
    (tasks.foldl launch w).launched = w.launched ++ tasks := by
  induction tasks generalizing w with
  | nil => simp
  | cons task rest ih =>
    rw [foldl_cons, ih]
    simp [launched, launch]

theorem step_balance (w : DefaultWorker) (o : WorkerOp) (task : StepTask)
    (hc : Orderly config w o) :
    w.kept.count task + (claimedBy config w o).count task =
      ((worker config).next w o).kept.count task + (releasedBy config w o).count task := by
  cases o with
  | claimOnce =>
    simp only [claimedBy, releasedBy, Machine.next, Machine.out, worker, DefaultWorker.claimOnce]
    split
    · rename_i hwaiting
      split
      · rfl
      · simp [kept, launched, hwaiting.1, claimedTasks,
          releasedTasks]
    · rfl
  | applyTaskFilter verdict =>
    simp only [claimedBy, releasedBy, Machine.next, Machine.out, worker,
      applyTaskFilter]
    split
    · rename_i next todo accepted hloop
      simp only [kept, launched, hloop]
      cases verdict with
      | accepts | rejects =>
        simp [claimedTasks, releasedTasks, count_cons]
        omega
      | throws => simp [Orderly, hloop, ClaimLoop.todo] at hc
    · rfl
  | launch =>
    simp only [claimedBy, releasedBy, Machine.next, Machine.out, worker,
      launchAccepted]
    split
    · rename_i accepted hloop
      have hlaunched := launched_foldl accepted w
      simp only [launched] at hlaunched
      simp [kept, launched, hloop, hlaunched,
        claimedTasks, releasedTasks]
    · rfl
  | deregistered k =>
    have hnone : claimedBy config w (.deregistered k) = [] ∧
        releasedBy config w (.deregistered k) = [] := by
      simp only [claimedBy, releasedBy, out, worker, deregistered]
      split <;> [split <;> exact ⟨rfl, rfl⟩; exact ⟨rfl, rfl⟩]
    rw [hnone.1, hnone.2, kept_next w (.deregistered k) nofun nofun nofun]
  | queue | start | exitLoop | runHandler | handlerEnds | attemptTimesOut | heartbeatTask
  | commit | finish | stop | drained | stopTimesOut =>
    rw [kept_next w] <;> first | rfl | nofun

/-- In every run of a worker whose claims return no task that is still active, whose
    filter throws on no task, whose attempts do not time out under a running handler, and
    whose loop is not started again under a pending `stop`, the worker accounts for its
    tasks. -/
theorem worker_accounts_for_tasks (config : WorkerConfig) (queue : InMemoryStepQueueConfig)
    (ops : List WorkerOp) (hc : (worker config).Always (Orderly config) (.new queue) ops) :
    AccountsForTasks config queue ops where
  capacity := by
    have haccounts := run_accounts queue hc
    have hrunning := haccounts.runningHandlers_le
    have hcapacity := haccounts.capacity
    omega
  stops := always_of_invariant_always (I := Accounts config)
    (fun _ o hc h => step_accounts h o hc) (fun _ o _ h => h.stopsIdle o) (accounts_new queue) hc
  claims := by
    rw [perm_iff_count]
    intro task
    have hbalance : (DefaultWorker.new queue).kept.count task +
          ((worker config).trace (claimedBy config) (.new queue) ops).count task =
        ((worker config).run (.new queue) ops).kept.count task +
          ((worker config).trace (releasedBy config) (.new queue) ops).count task :=
      balance (fun w o task hc => step_balance w o task hc) hc task
    have hnew : (DefaultWorker.new queue).kept = [] := rfl
    rw [hnew] at hbalance
    simp only [count_nil, kept, count_append] at hbalance ⊢
    omega

/-! ## The runs that break the account -/

private def twoSlots : WorkerConfig where
  workerId := "w1"
  registry := ["a", "b", "c"]
  concurrency := 2

/-- Somebody enqueues a step of the run `r`. -/
private def enqueued (stepName : String) : WorkerOp :=
  .queue (.enqueue { workflowId := "r", stepName := stepName, input := .null })

private def launches (i : Nat) : List WorkerOp :=
  [.claimOnce, .applyTaskFilter .accepts, .launch, .runHandler i none]

/-- The task of the first execution goes stale, is put back, and is launched again
    while the first handler runs on. -/
private def reclaimed : List WorkerOp :=
  [enqueued "a", .start] ++ launches 0 ++
    [.queue (.requeueStuck { mode := .worker "w1" })] ++ launches 1

private def finishes (i : Nat) : List WorkerOp :=
  [.handlerEnds i (.returned .null), .commit i, .finish i]

/-- Two executions of one task take one slot, so a third handler starts; the end of the
    first empties the map, so a `stop` resolves under the second; and a filter that
    throws loses the batch. -/
theorem reclaimed_task_counterexample :
    ¬ (((worker twoSlots).run (.new {}) (reclaimed ++ [enqueued "b"] ++ launches 2)).runningHandlers
        ≤ twoSlots.concurrency) ∧
      ¬ (worker twoSlots).Always (StopsIdle twoSlots) (.new {})
          (reclaimed ++ [.stop none, .exitLoop, .drained 0] ++ finishes 0 ++ [.deregistered 0]) ∧
      ¬ AccountsForTasks twoSlots {}
        [enqueued "a", .start, .claimOnce, .applyTaskFilter .throws] := by
  refine ⟨by decide +kernel, by decide +kernel, fun h => ?_⟩
  have hperm := h.claims.length_eq
  revert hperm
  decide

/-- An orderly run: two tasks, one given back, one settled under a pending `stop`. -/
theorem worker_accounts_for_tasks_orderly :
    AccountsForTasks twoSlots {}
      ([enqueued "a", enqueued "b", .start, .claimOnce, .applyTaskFilter .accepts,
        .applyTaskFilter .rejects, .launch, .runHandler 0 none, .stop none, .exitLoop,
        .drained 0] ++
        finishes 0 ++ [.deregistered 0]) :=
  worker_accounts_for_tasks twoSlots {} _ (by decide)

end Promin.Distributed

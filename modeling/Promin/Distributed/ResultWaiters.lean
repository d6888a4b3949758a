import Promin.Durable.DagExecutor

/-!
# Waiting for results

The result loop of the coordinator: callers that wait for runs other processes drive.  A pass
of the loop loads every watched run and settles the waiters of those that ended.
-/

namespace Promin.Distributed

open Promin.Durable

variable {V : Type}

/-- What the waiters of a run are settled with. -/
inductive Settlement (V : Type) where
  | resolved (result : V)
  | rejected (message : String)

structure ResultWatch where
  resultWaiters : JsMap String (List Nat)
  /-- The runs this process drives. -/
  runningWorkflows : List String

/-- `_watchResult`. -/
def ResultWatch.watchResult (watch : ResultWatch) (workflowId : String) (waiter : Nat) :
    ResultWatch :=
  { watch with resultWaiters := watch.resultWaiters.push workflowId waiter }

/-- What a pass settles the waiters of a run with, if the run ended. -/
def settlementOf (json : JsonValues V) (workflowId : String) :
    Option WorkflowState → Option (Settlement V)
  | none => some (.rejected ("Workflow \"" ++ workflowId ++ "\" not found"))
  | some state =>
    match state.status with
    | .completed => some (.resolved (json.loaded (state.result.getD .undefined)))
    | .failed => some (.rejected (state.error.getD "Workflow failed"))
    | .tripwire =>
      some (.rejected (state.error.getD ("Workflow \"" ++ workflowId ++ "\" ended via tripwire")))
    | .pending => none
    | .running => none
    | .suspended => none
    | .compensating => none

/-- `_checkResults`: the settled waiters, those left, and whether the loop stops. -/
def ResultWatch.checkResults (json : JsonValues V) (s : InMemoryWorkflowStorage)
    (watch : ResultWatch) : List (Nat × Settlement V) × ResultWatch × Bool :=
  let ids := watch.resultWaiters.keys.filter fun id => !watch.runningWorkflows.contains id
  let settlement := fun id =>
    settlementOf json id ((s.workflows.get id).map (·.toWorkflowState))
  let settled := ids.flatMap fun id =>
    match settlement id with
    | some answer => ((watch.resultWaiters.get id).getD []).map fun waiter => (waiter, answer)
    | none => []
  let left := (ids.filter fun id => (settlement id).isSome).foldl
    (fun waiters id => waiters.delete id) watch.resultWaiters
  (settled, { watch with resultWaiters := left }, decide (left.size = 0))

def ResultWatch.Watches (watch : ResultWatch) (workflowId : String) (waiter : Nat) : Prop :=
  waiter ∈ (watch.resultWaiters.get workflowId).getD [] ∧
    watch.runningWorkflows.contains workflowId = false

theorem mem_checkResults {json : JsonValues V} {s : InMemoryWorkflowStorage}
    {watch : ResultWatch} {waiter : Nat} {answer : Settlement V} :
    (waiter, answer) ∈ (watch.checkResults json s).1 ↔
      ∃ id, watch.Watches id waiter ∧
        settlementOf json id ((s.workflows.get id).map (·.toWorkflowState)) = some answer := by
  simp only [ResultWatch.checkResults, List.mem_flatMap, List.mem_filter, Bool.not_eq_true']
  constructor
  · rintro ⟨id, ⟨-, hother⟩, hmem⟩
    refine ⟨id, ?_⟩
    split at hmem
    · rename_i answer' hanswer
      obtain ⟨waiter', hwaits, heq⟩ := List.mem_map.mp hmem
      cases heq
      exact ⟨⟨hwaits, hother⟩, hanswer⟩
    · cases hmem
  · rintro ⟨id, ⟨hwaits, hother⟩, hanswer⟩
    refine ⟨id, ⟨?_, hother⟩, ?_⟩
    · rw [JsMap.mem_keys_iff]
      cases hget : watch.resultWaiters.get id with
      | some waiters => rfl
      | none =>
        rw [hget] at hwaits
        cases hwaits
    · rw [hanswer]
      exact List.mem_map_of_mem hwaits

theorem watches_watchResult_empty {workflowId id : String} {waiter waiter' : Nat} :
    ((⟨JsMap.empty, []⟩ : ResultWatch).watchResult workflowId waiter).Watches id waiter' ↔
      id = workflowId ∧ waiter' = waiter := by
  unfold ResultWatch.Watches ResultWatch.watchResult
  rw [JsMap.push_eq_set, JsMap.get_set]
  by_cases hid : id = workflowId
  · simp [hid]
  · simp [hid, Ne.symm hid]

end Promin.Distributed

import Promin.Durable.Driving
import Promin.Spec.StorageFrame

/-!
# Rules for drivers

What lock traffic leaves alone, and the rules for a driver's storage calls and
checkpoint writes: a write that fails abandons the run, and nothing else does.
-/

namespace Promin.Durable

open Prog

variable {event α : Type}

theorem run_traffic (workflowId : String) (moment : Moment) (s : InMemoryWorkflowStorage) :
    ∃ leases now, storage.run s (moment.map (·.op workflowId)) =
      { s with leases := leases, now := now } := by
  induction moment generalizing s with
  | nil => exact ⟨s.leases, s.now, rfl⟩
  | cons traffic moment ih =>
    have hstep : ∃ leases now, storage.next s (traffic.op workflowId) =
        { s with leases := leases, now := now } := by
      cases traffic with
      | advance ms => exact ⟨s.leases, s.now + ms, rfl⟩
      | tryLock ms attempt | releaseLock g | heartbeat ms g => exact ⟨_, s.now, rfl⟩
    obtain ⟨leases, now, hnext⟩ := hstep
    obtain ⟨leases', now', hrun⟩ := ih { s with leases := leases, now := now }
    refine ⟨leases', now', ?_⟩
    rw [List.map_cons, Machine.run_cons, hnext, hrun]

theorem interfere_workflows (workflowId : String) (moment : Moment) (w : DriverWorld event) :
    (interfere workflowId moment w).storage.workflows = w.storage.workflows := by
  obtain ⟨leases, now, h⟩ := run_traffic workflowId moment w.storage
  simp only [interfere, h]

variable {workflowId : String}

theorem stable_of_rows {P : DriverWorld event → Prop}
    (h : ∀ w w' : DriverWorld event, w'.storage.workflows = w.storage.workflows →
      w'.events = w.events → P w → P w') :
    Stable (interfere workflowId) P :=
  fun moment w hw => h w _ (interfere_workflows workflowId moment w) rfl hw

variable {I P : DriverWorld event → Prop} {Q : α → DriverWorld event → Prop}
  {E : Thrown → DriverWorld event → Prop}

theorem storageCall_triple {events : List event}
    {call : InMemoryWorkflowStorage → InMemoryWorkflowStorage × Except StorageError α}
    (hi : Stable (interfere workflowId) I) (hp : Stable (interfere workflowId) P)
    (hok : ∀ w s a, I w → P w → call w.storage = (s, .ok a) →
      I { w with storage := s, events := w.events ++ events } ∧
        Q a { w with storage := s, events := w.events ++ events })
    (herr : ∀ w s e, I w → P w → call w.storage = (s, .error e) →
      I { w with storage := s } ∧ E e.thrown { w with storage := s }) :
    Triple I P (storageCall workflowId events call) Q E := by
  apply Triple.act hi hp
  intro w hinv hpre
  cases hcall : call w.storage with
  | mk s r =>
    cases r with
    | ok a => exact hok w s a hinv hpre hcall
    | error e => exact herr w s e hinv hpre hcall

theorem read_triple {f : InMemoryWorkflowStorage → α}
    (hi : Stable (interfere workflowId) I) (hp : Stable (interfere workflowId) P)
    (hread : ∀ w, I w → P w → Q (f w.storage) w) :
    Triple I P (storageCall workflowId [] fun s => (s, .ok (f s))) Q E := by
  apply storageCall_triple hi hp
  · intro w s a hinv hpre hcall
    cases hcall
    have hsame : ({ w with storage := w.storage, events := w.events ++ [] } : DriverWorld event) =
        w := by rw [List.append_nil]
    rw [hsame]
    exact ⟨hinv, hread w hinv hpre⟩
  · intro w s e _ _ hcall
    exact nomatch hcall

/-- The error abandons the run for a fence that rejected a write. -/
def FencedOut (guard_ : FenceGuard) (e : Thrown) : Prop :=
  isAbandonRunExit e = true ∧ truthy guard_ = true

theorem fencedWrite_triple {Q : Unit → DriverWorld event → Prop}
    {guard_ : FenceGuard} {body : InMemoryWorkflowStorage → InMemoryWorkflowStorage}
    (hi : Stable (interfere workflowId) I) (hp : Stable (interfere workflowId) P)
    (hwrite : ∀ w, I w → P w →
      I { w with storage := body w.storage } ∧ Q () { w with storage := body w.storage }) :
    Triple I P
      (storageCall workflowId [] fun s => s.fencedWrite workflowId guard_ (body s)) Q
      fun e w => P w ∧ FencedOut guard_ e := by
  apply storageCall_triple hi hp
  · intro w s a hinv hpre hcall
    rw [List.append_nil]
    cases fenced_cases w.storage workflowId guard_ (body w.storage, .ok ()) with
    | inl hrejected =>
      obtain ⟨e, -, hrejected⟩ := hrejected
      have hcall' := hrejected.symm.trans hcall
      exact nomatch hcall'
    | inr hpassed =>
      have hcall' := hpassed.2.symm.trans hcall
      cases hcall'
      exact hwrite w hinv hpre
  · intro w s e hinv hpre hcall
    cases fenced_cases w.storage workflowId guard_ (body w.storage, .ok ()) with
    | inl hrejected =>
      obtain ⟨f, hfence, hrejected⟩ := hrejected
      have hcall' := hrejected.symm.trans hcall
      cases hcall'
      have hguarded : truthy guard_ = true := by
        cases hg : truthy guard_ with
        | true => rfl
        | false =>
          simp [InMemoryLeaseTable.checkFence, hg] at hfence
      exact ⟨hinv, hpre, rfl, hguarded⟩
    | inr hpassed =>
      have hcall' := hpassed.2.symm.trans hcall
      exact nomatch hcall'

theorem storageCall_within (workflowId : String) (events : List event)
    (call : InMemoryWorkflowStorage → InMemoryWorkflowStorage × Except StorageError α) :
    Within 1 (storageCall workflowId events call) := Within.act _ _

theorem thrown_abandons (e : StorageError) (h : isControlFlowExit e.thrown = true) :
    isAbandonRunExit e.thrown = true := by
  cases e with
  | fence e => rfl
  | error message => simp [StorageError.thrown, isControlFlowExit, Thrown.tag] at h

theorem checkpointWrite_triple {workflowId operation stepName : String} {write : Drive event α}
    (hwrite : Triple I P write Q fun e w =>
      P w ∧ (isControlFlowExit e = true → isAbandonRunExit e = true)) :
    Triple I P (checkpointWrite workflowId operation stepName write) Q
      fun e w => P w ∧ isAbandonRunExit e = true := by
  apply Triple.tryCatch
    (R := fun e w => P w ∧ (isControlFlowExit e = true → isAbandonRunExit e = true))
  · exact Triple.retry 3 0 (fun _ _ _ => hwrite) (fun _ _ _ _ _ h => h.1)
      (fun _ _ _ _ _ h => h) (fun _ _ h => h)
  · intro e
    cases he : isControlFlowExit e with
    | true => exact Triple.throw fun w _ h => ⟨h.1, h.2 rfl⟩
    | false => exact Triple.throw fun w _ h => ⟨h.1, rfl⟩

end Promin.Durable

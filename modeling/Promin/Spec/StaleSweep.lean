import Promin.Durable.Scanners
import Promin.Spec.IdempotencyIndex
import Promin.Durable.Recovery

/-!
# The sweep of stale runs over the in-memory storage

Rows that were ended leave the listing of their status, rows that someone drives
stay in it and the offset moves past them: the next page is always of rows not
seen yet.
-/

/-!
## The sweep of stale runs ends

The paged path of `terminateStaleRuns` moves an offset over a listing that
shrinks as it works.
-/

namespace Promin.Durable

open List

open SqliteWorkflowStorage (StaleStatus)

structure ListsAmong {σ : Type} (ops : PagedStorage σ) (ids : List String) (I : σ → Prop) :
    Prop where
  listed : ∀ s p, I s → ∀ wf ∈ ops.listWorkflows s p, wf.workflowId ∈ ids
  tryLock : ∀ s id ms, I s → I (ops.tryLock s id ms).1
  cancelWorkflow : ∀ s id g, I s → I (ops.cancelWorkflow s id g).1
  failWorkflow : ∀ s id e g, I s → I (ops.failWorkflow s id e g).1
  releaseLock : ∀ s id g, I s → I (ops.releaseLock s id g)

namespace Sweep

section Ends

variable {σ : Type} {ops : PagedStorage σ} {ids : List String} {I : σ → Prop}
  (action : StaleTerminationAction) (cutoff : Int) (status : StaleStatus)

structure Marked (ids : List String) (I : σ → Prop) (w : Sweep σ) : Prop where
  storage : I w.storage
  tried : w.tried.Nodup
  triedListed : ∀ id ∈ w.tried, id ∈ ids
  stuck : w.stuck.Nodup
  stuckListed : ∀ id ∈ w.stuck, id ∈ ids

/-- The marks only grow, and progress is made on a run not tried before. -/
structure Grows (w w' : Sweep σ) : Prop where
  tried : w.tried.length ≤ w'.tried.length
  stuck : w.stuck.length ≤ w'.stuck.length
  progress : w'.progressed = true → w.progressed = true ∨ w.tried.length < w'.tried.length

theorem Grows.refl (w : Sweep σ) : Grows w w := ⟨by omega, by omega, fun h => .inl h⟩

theorem Grows.trans {w w' w'' : Sweep σ} (h : Grows w w') (h' : Grows w' w'') : Grows w w'' where
  tried := h.tried.trans h'.tried
  stuck := h.stuck.trans h'.stuck
  progress := by
    intro hp
    have htried := h'.tried
    cases h'.progress hp with
    | inl hp' =>
      cases h.progress hp' with
      | inl hp'' => exact .inl hp''
      | inr hlt => exact .inr (by omega)
    | inr hlt =>
      have := h.tried
      exact .inr (by omega)

variable {w : Sweep σ}

theorem Marked.bound (h : Marked ids I w) :
    w.tried.length + w.stuck.length ≤ 2 * ids.length := by
  have htried := (h.tried.subperm h.triedListed).length_le
  have hstuck := (h.stuck.subperm h.stuckListed).length_le
  omega

theorem Marked.addStuck (h : Marked ids I w) {id : String} (hid : id ∈ ids) :
    Marked ids I (w.addStuck id) where
  storage := h.storage
  tried := h.tried
  triedListed := h.triedListed
  stuck := h.stuck.insert
  stuckListed := by
    intro x hx
    cases mem_insert_iff.mp hx with
    | inl heq => exact heq ▸ hid
    | inr hx => exact h.stuckListed x hx

theorem grows_addStuck (w : Sweep σ) (id : String) : Grows w (w.addStuck id) where
  tried := le_refl _
  stuck := (suffix_insert id w.stuck).length_le
  progress := fun h => .inl h

theorem Marked.terminate (hops : ListsAmong ops ids I) (h : Marked ids I w)
    (id : String) (g : FenceGuard) : Marked ids I (w.terminate ops action id g).1 := by
  have hended : ∀ r : σ × Except StorageError Unit, I r.1 →
      Marked ids I (({ w with progressed := true } : Sweep σ).ended ops id g r).1 := by
    intro r hr
    have hs := hops.releaseLock r.1 id g hr
    unfold Sweep.ended
    cases hok : r.2 with
    | error e | ok u => exact { h with storage := hs }
  cases action with
  | cancel => exact hended _ (hops.cancelWorkflow _ _ _ h.storage)
  | fail error => exact hended _ (hops.failWorkflow _ _ _ _ h.storage)

theorem terminate_marks (ops : PagedStorage σ) (w : Sweep σ) (id : String) (g : FenceGuard) :
    (w.terminate ops action id g).1.tried = w.tried ∧
      (w.terminate ops action id g).1.stuck = w.stuck := by
  have hended : ∀ r : σ × Except StorageError Unit,
      (({ w with progressed := true } : Sweep σ).ended ops id g r).1.tried = w.tried ∧
        (({ w with progressed := true } : Sweep σ).ended ops id g r).1.stuck = w.stuck := by
    intro r
    unfold Sweep.ended
    cases hok : r.2 with
    | error e | ok u => exact ⟨rfl, rfl⟩
  cases action with
  | cancel | fail error => exact hended _

section

variable (hops : ListsAmong ops ids I)
include hops

theorem visitRow_marked (h : Marked ids I w) {id : String} (hid : id ∈ ids) :
    Marked ids I (w.visitRow ops action id).1 ∧ Grows w (w.visitRow ops action id).1 := by
  unfold visitRow
  split
  · exact ⟨h.addStuck hid, grows_addStuck w id⟩
  · rename_i htried
    -- The run is tried for the first time, whatever becomes of it.
    have hnew : (w.tried.insert id).length = w.tried.length + 1 := by
      simp [insert_of_not_mem htried]
    have hmarked : Marked ids I { w with
        tried := w.tried.insert id
        storage := (ops.tryLock w.storage id staleTerminationLockMs).1 } := by
      refine { h with
        storage := hops.tryLock _ _ _ h.storage, tried := h.tried.insert, triedListed := ?_ }
      intro x hx
      cases mem_insert_iff.mp hx with
      | inl heq => exact heq ▸ hid
      | inr hx => exact h.triedListed x hx
    simp only
    split
    · refine ⟨hmarked.addStuck hid, ?_⟩
      have hstuck : w.stuck.length ≤ (w.stuck.insert id).length :=
        (suffix_insert id w.stuck).length_le
      exact ⟨by show _ ≤ (w.tried.insert id).length; omega, hstuck, fun hp => .inl hp⟩
    · refine ⟨hmarked.terminate action hops _ _, ?_⟩
      obtain ⟨ht, hs⟩ := terminate_marks action ops ({ w with
        tried := w.tried.insert id
        storage := (ops.tryLock w.storage id staleTerminationLockMs).1 } : Sweep σ) id
        (ops.tryLock w.storage id staleTerminationLockMs).2.token
      constructor
      · rw [ht]
        show _ ≤ (w.tried.insert id).length
        omega
      · rw [hs]
      · intro _
        rw [ht]
        right
        show _ < (w.tried.insert id).length
        omega

theorem visitPage_marked {page : List WorkflowState}
    (hpage : ∀ wf ∈ page, wf.workflowId ∈ ids) (h : Marked ids I w) :
    Marked ids I (visitPage ops action cutoff page w).1 ∧
      Grows w (visitPage ops action cutoff page w).1 := by
  induction page generalizing w with
  | nil => exact ⟨h, Grows.refl w⟩
  | cons wf page ih =>
    rw [visitPage]
    split
    · exact ⟨h, Grows.refl w⟩
    · obtain ⟨hm, hg⟩ := visitRow_marked action hops h (hpage wf mem_cons_self)
      cases hrow : w.visitRow ops action wf.workflowId with
      | mk w' r =>
        rw [hrow] at hm hg
        cases r with
        | error e => exact ⟨hm, hg⟩
        | ok u =>
          obtain ⟨hm', hg'⟩ := ih (fun x hx => hpage x (mem_cons_of_mem _ hx)) hm
          exact ⟨hm', hg.trans hg'⟩

theorem sweepStatus_isSome {fuel : Nat}
    (h : Marked ids I w) (hfuel : 2 * ids.length < fuel + w.tried.length + w.stuck.length) :
    (sweepStatus ops action cutoff status fuel w).isSome = true := by
  induction fuel generalizing w with
  | zero =>
    have := h.bound
    omega
  | succ fuel ih =>
    have hstart : Marked ids I { w with progressed := false } := { h with }
    obtain ⟨hm, hg⟩ := visitPage_marked action cutoff hops
      (show ∀ wf ∈ w.page ops status, wf.workflowId ∈ ids from hops.listed _ _ h.storage) hstart
    rw [sweepStatus]
    cases hvisit : visitPage ops action cutoff (w.page ops status)
        { w with progressed := false } with
    | mk w' r =>
      rw [hvisit] at hm hg
      cases r with
      | error e => rfl
      | ok u =>
        simp only
        split
        · rfl
        · rename_i hlast
          split
          · rfl
          · apply ih hm
            show _ < fuel + w'.tried.length + w'.stuck.length
            have htried := hg.tried
            have hstuck := hg.stuck
            simp only at htried hstuck
            -- Either a run was tried for the first time, or one got stuck.
            cases hp : w'.progressed with
            | true =>
              cases hg.progress hp with
              | inl hfalse => simp at hfalse
              | inr hlt =>
                simp only at hlt
                omega
            | false =>
              have hne : w'.stuck.length ≠ w.stuck.length := by simpa [hp] using hlast
              omega

theorem sweepStatus_marked {fuel : Nat}
    (h : Marked ids I w) {r : Sweep σ × Except StorageError Unit}
    (hr : sweepStatus ops action cutoff status fuel w = some r) : Marked ids I r.1 := by
  induction fuel generalizing w with
  | zero => cases hr
  | succ fuel ih =>
    have hstart : Marked ids I { w with progressed := false } := { h with }
    have hm := (visitPage_marked action cutoff hops
      (show ∀ wf ∈ w.page ops status, wf.workflowId ∈ ids from hops.listed _ _ h.storage)
      hstart).1
    rw [sweepStatus] at hr
    cases hvisit : visitPage ops action cutoff (w.page ops status)
        { w with progressed := false } with
    | mk w' x =>
      rw [hvisit] at hm hr
      cases x with
      | error e =>
        cases hr
        exact hm
      | ok u =>
        simp only at hr
        split at hr
        · cases hr
          exact hm
        · split at hr
          · cases hr
            exact hm
          · exact ih hm hr

theorem sweepStatuses_isSome {fuel : Nat}
    (hfuel : 2 * ids.length < fuel) (statuses : List StaleStatus) {s : σ} (h : I s)
    (terminated : Nat) :
    (sweepStatuses ops action cutoff fuel statuses s terminated).isSome = true := by
  induction statuses generalizing s terminated with
  | nil => rfl
  | cons status rest ih =>
    have hstart : Marked ids I ⟨s, [], [], false, terminated⟩ :=
      ⟨h, nodup_nil, fun _ hx => absurd hx not_mem_nil, nodup_nil,
        fun _ hx => absurd hx not_mem_nil⟩
    have hsome : (sweepStatus ops action cutoff status fuel
        ⟨s, [], [], false, terminated⟩).isSome = true :=
      sweepStatus_isSome action cutoff status hops hstart (by simpa using hfuel)
    rw [sweepStatuses]
    cases hsweep : sweepStatus ops action cutoff status fuel ⟨s, [], [], false, terminated⟩ with
    | none => simp [hsweep] at hsome
    | some r =>
      have hm := sweepStatus_marked action cutoff status hops hstart hsweep
      obtain ⟨w, x⟩ := r
      cases x with
      | error e => rfl
      | ok u => exact ih hm.storage _

end

end Ends

end Sweep

end Promin.Durable

namespace Promin.Durable

open JsMap List

open SqliteWorkflowStorage (StaleStatus)

/-! ## The in-memory storage -/

/-- Every run is stored under its own id. -/
def RowsKeyed (s : InMemoryWorkflowStorage) : Prop :=
  ∀ id wf, s.workflows.get id = some wf → wf.workflowId = id

theorem run_rowsKeyed (config : StorageConfig) (ops : List StorageOp) :
    RowsKeyed (storage.run (InMemoryWorkflowStorage.new config) ops) :=
  (run_claimsIndexed config ops).ids

namespace InMemoryWorkflowStorage

structure HasIds (ids : List String) (s : InMemoryWorkflowStorage) : Prop where
  keyed : RowsKeyed s
  keys : s.workflows.keys = ids

variable {ids : List String} {s : InMemoryWorkflowStorage}

theorem HasIds.of_workflows {s' : InMemoryWorkflowStorage}
    (h : HasIds ids s) (hsame : s'.workflows = s.workflows) : HasIds ids s' := by
  constructor
  · intro id wf
    rw [hsame]
    exact h.keyed id wf
  · rw [hsame]
    exact h.keys

theorem HasIds.putRun (h : HasIds ids s)
    {id : String} {wf wf' : MutableWorkflow} (hget : s.workflows.get id = some wf)
    (hid : wf'.workflowId = wf.workflowId) : HasIds ids (s.putRun id wf') := by
  constructor
  · intro x row hrow
    simp only [InMemoryWorkflowStorage.putRun, get_set] at hrow
    split at hrow
    · rename_i heq
      cases hrow
      rw [hid, ← heq]
      exact h.keyed id wf hget
    · exact h.keyed x row hrow
  · rw [← h.keys]
    exact keys_set_of_get hget wf'

theorem HasIds.fencedWrite (h : HasIds ids s)
    (id : String) (g : FenceGuard) {body : InMemoryWorkflowStorage} (hbody : HasIds ids body) :
    HasIds ids (s.fencedWrite id g body).1 :=
  fenced_state h hbody

theorem listed_mem {p : ListWorkflowsParams} {wf : WorkflowState} (h : wf ∈ s.listWorkflows p) :
    ∃ row ∈ s.workflows.values, row.toWorkflowState = wf := by
  obtain ⟨row, hrow, heq⟩ := mem_map.mp h
  have hsorted : row ∈ sortWorkflowRows p.orderBy p.orderDir (s.workflows.values.filter fun wf =>
      matchesListFilter wf p.toWorkflowListFilter (s.resolveNamespace p.ns)) := by
    unfold slicePage at hrow
    split at hrow
    · exact mem_of_mem_drop hrow
    · exact mem_of_mem_drop (mem_of_mem_take hrow)
  rw [sortWorkflowRows, StableSort.mem_sort] at hsorted
  exact ⟨row, (mem_filter.mp hsorted).1, heq⟩

theorem listsAmong (ignores : String → Bool) (ids : List String) :
    ListsAmong (inMemoryPages ignores) ids (HasIds ids) where
  listed := by
    intro s p h wf hwf
    obtain ⟨row, hrow, rfl⟩ := listed_mem hwf
    obtain ⟨id, hget⟩ := (mem_values_iff _ _).mp hrow
    rw [← h.keys, mem_keys_iff]
    show (s.workflows.get row.workflowId).isSome = true
    rw [h.keyed id row hget, hget]
    rfl
  tryLock := fun s id ms h => h.of_workflows rfl
  releaseLock := fun s id g h => h.of_workflows rfl
  cancelWorkflow := by
    intro s id g h
    simp only [inMemoryPages]
    split
    · exact h
    · apply h.fencedWrite
      unfold cancelRun
      cases hget : s.workflows.get id with
      | none => exact h
      | some wf =>
        simp only [Bool.false_eq_true, if_false]
        split
        · exact h
        · have hput := h.putRun hget (show (s.cancelled wf).workflowId = wf.workflowId from rfl)
          exact hput.of_workflows rfl
  failWorkflow := by
    intro s id error g h
    simp only [inMemoryPages]
    split
    · exact h
    · apply h.fencedWrite
      cases hget : s.workflows.get id with
      | none => exact h
      | some wf =>
        simp only
        split
        · exact h
        · have hput := h.putRun hget (show
            ({ wf with
              status := .failed, error := some error, errorTag := none
              completedAt := some s.now, updatedAt := s.now } : MutableWorkflow).workflowId =
            wf.workflowId from rfl)
          exact hput.of_workflows rfl

end InMemoryWorkflowStorage

/-! ## Ending one run -/

def StaleTerminationAction.error : StaleTerminationAction → String
  | .cancel => cancelledError
  | .fail error => error

def StaleTerminationAction.errorTag : StaleTerminationAction → Option String
  | .cancel => some cancelledErrorTag
  | .fail _ => none

def StaleTerminationAction.endedRow (action : StaleTerminationAction) (now : Int)
    (wf : MutableWorkflow) : MutableWorkflow :=
  { wf with
    status := .failed
    error := some action.error
    errorTag := action.errorTag
    completedAt := some now
    updatedAt := now }

/-- The runs `ids` were ended, each once, and nothing else changed but tokens of locks that
nobody holds. -/
structure EndsRuns (action : StaleTerminationAction) (ids : List String)
    (s s' : InMemoryWorkflowStorage) : Prop where
  rows : s'.workflows = s.workflows.mapValues fun id wf =>
    if id ∈ ids then action.endedRow s.now wf else wf
  locks : ∀ id, s'.leases.live s.now id = s.leases.live s.now id
  now : s'.now = s.now
  ns : s'.ns = s.ns
  events : s'.events = s.events ++
    ids.map fun id => ⟨id, .workflowFailed action.error s.now, true⟩

namespace EndsRuns

variable {action : StaleTerminationAction} {ids ids' : List String}
  {s s' s'' : InMemoryWorkflowStorage}

theorem refl (action : StaleTerminationAction) (s : InMemoryWorkflowStorage) :
    EndsRuns action [] s s where
  rows := by
    apply JsMap.ext
    simp [JsMap.mapValues]
  locks := fun _ => rfl
  now := rfl
  ns := rfl
  events := by simp

theorem trans (h : EndsRuns action ids s s') (h' : EndsRuns action ids' s' s'') :
    EndsRuns action (ids ++ ids') s s'' where
  rows := by
    rw [h'.rows, h.rows, h.now]
    apply JsMap.ext
    simp only [JsMap.mapValues, map_map]
    apply map_congr_left
    intro e _
    -- A run that is ended again keeps its row.
    by_cases h1 : e.1 ∈ ids <;> by_cases h2 : e.1 ∈ ids' <;>
      simp [h1, h2, StaleTerminationAction.endedRow]
  locks := by
    intro id
    have hlater := h'.locks id
    rw [h.now] at hlater
    exact hlater.trans (h.locks id)
  now := h'.now.trans h.now
  ns := h'.ns.trans h.ns
  events := by
    rw [h'.events, h.events, h.now]
    simp

theorem get (h : EndsRuns action ids s s') (id : String) :
    s'.workflows.get id = (s.workflows.get id).map fun wf =>
      if id ∈ ids then action.endedRow s.now wf else wf := by
  rw [h.rows, get_mapValues]

end EndsRuns

namespace InMemoryWorkflowStorage

open InMemoryLeaseTable

/-- What is left when a free run was locked, ended and released. -/
def afterEnding (action : StaleTerminationAction) (s : InMemoryWorkflowStorage) (id : String)
    (wf : MutableWorkflow) (lease : Lease) : InMemoryWorkflowStorage :=
  { s with
    workflows := s.workflows.set id (action.endedRow s.now wf)
    events := s.events ++ [⟨id, .workflowFailed action.error s.now, true⟩]
    leases := { s.leases with
      nextFenceToken := s.leases.nextFenceToken + 1
      leases := (s.leases.leases.set id lease).delete id } }

variable {id : String} {wf : MutableWorkflow} {s : InMemoryWorkflowStorage}

theorem endsRuns_afterEnding (action : StaleTerminationAction) (hget : s.workflows.get id = some wf)
    (hfree : s.leases.live s.now id = none) (lease : Lease) :
    EndsRuns action [id] s (s.afterEnding action id wf lease) where
  rows := by
    show s.workflows.set id (action.endedRow s.now wf) = _
    rw [set_eq_mapValues hget fun row => action.endedRow s.now row]
    simp
  locks := by
    intro x
    by_cases hx : x = id
    · subst hx
      rw [hfree]
      simp [afterEnding, live]
    · simp [afterEnding, live, get_delete, get_set, Ne.symm hx]
  now := rfl
  ns := rfl
  events := rfl

def terminationLease (s : InMemoryWorkflowStorage) : Lease where
  expiresAt := s.now + staleTerminationLockMs
  lockedBy := s.leases.instanceId
  token := toString s.leases.nextFenceToken
  attemptId := none

theorem tryLock_free (hfree : s.leases.live s.now id = none) :
    s.tryLock id staleTerminationLockMs none =
      ({ s with leases := { s.leases with
          nextFenceToken := s.leases.nextFenceToken + 1
          leases := s.leases.leases.set id s.terminationLease } },
        ⟨true, some s.terminationLease.token⟩) := by
  simp [tryLock, tryAcquire, hfree, terminationLease]

theorem tryLock_held {lease : Lease} (hheld : s.leases.live s.now id = some lease) :
    s.tryLock id staleTerminationLockMs none = (s, ⟨false, none⟩) := by
  simp [tryLock, tryAcquire, hheld]

theorem truthy_terminationLease (s : InMemoryWorkflowStorage) :
    truthy (some s.terminationLease.token) = true := by
  have hne : s.terminationLease.token ≠ "" := Nat.repr_ne_empty
  simp [truthy, hne]

theorem terminate_free (action : StaleTerminationAction) {w : Sweep InMemoryWorkflowStorage}
    (hget : s.workflows.get id = some wf) (hopen : cancellable wf.status = true)
    (hfree : s.leases.live s.now id = none)
    (hw : w.storage = (s.tryLock id staleTerminationLockMs none).1) :
    w.terminate (inMemoryPages fun _ => false) action id (some s.terminationLease.token) =
      ({ w with
        storage := s.afterEnding action id wf s.terminationLease
        progressed := true
        terminated := w.terminated + 1 }, .ok ()) := by
  have htruthy := s.truthy_terminationLease
  have hlive : ¬ s.terminationLease.expiresAt ≤ s.now := by
    simp [terminationLease, staleTerminationLockMs]
  have hterminal : wf.status.isTerminal = false := by
    cases hstatus : wf.status <;> simp_all [cancellable, WorkflowStatus.isTerminal]
  rw [tryLock_free hfree] at hw
  cases action with
  | cancel =>
    simp [Sweep.terminate, Sweep.ended, inMemoryPages, cancelWorkflow, fencedWrite, fenced,
      checkFence, htruthy, hw, hlive, cancelRun, hget, hopen, releaseLock, release, afterEnding,
      putRun, emit, cancelled, StaleTerminationAction.endedRow, StaleTerminationAction.error,
      StaleTerminationAction.errorTag]
  | fail error =>
    simp [Sweep.terminate, Sweep.ended, inMemoryPages, failWorkflow, endRun, fencedWrite, fenced,
      checkFence, htruthy, hw, hlive, hget, hterminal, releaseLock, release, afterEnding,
      putRun, emit, StaleTerminationAction.endedRow, StaleTerminationAction.error,
      StaleTerminationAction.errorTag]

/-! ## The listing of a status -/

def listing (s : InMemoryWorkflowStorage) (status : StaleStatus) : List MutableWorkflow :=
  sortWorkflowRows .createdAt .asc (s.workflows.values.filter fun wf =>
    matchesListFilter wf { status := some status.toStatus } s.ns)

theorem matches_iff (s : InMemoryWorkflowStorage) (wf : MutableWorkflow) (status : StaleStatus) :
    matchesListFilter wf { status := some status.toStatus } s.ns = true ↔
      s.inScope wf = true ∧ wf.status = status.toStatus := by
  simp [matchesListFilter, wantedValue, wantedText, inScope]

theorem sortsAfter_createdAt (a b : MutableWorkflow) :
    sortsAfter .createdAt .asc a b = decide (b.createdAt < a.createdAt) := rfl

theorem consistent_createdAt :
    StableSort.Consistent (sortsAfter .createdAt .asc) fun _ => True where
  asymm := by
    intro a b _ _ hab
    simp only [sortsAfter_createdAt, decide_eq_true_eq, decide_eq_false_iff_not] at hab ⊢
    omega
  between := by
    intro a b c _ _ _ hac
    simp only [sortsAfter_createdAt, decide_eq_true_eq] at hac ⊢
    omega

theorem mem_listing {status : StaleStatus} :
    wf ∈ s.listing status ↔
      wf ∈ s.workflows.values ∧ s.inScope wf = true ∧ wf.status = status.toStatus := by
  rw [listing, sortWorkflowRows, StableSort.mem_sort, mem_filter, matches_iff]

theorem sorted_listing (s : InMemoryWorkflowStorage) (status : StaleStatus) :
    (s.listing status).Pairwise fun a b => a.createdAt ≤ b.createdAt := by
  have hsorted : StableSort.Sorted (sortsAfter .createdAt .asc) (s.listing status) :=
    StableSort.sorted_sort consistent_createdAt fun _ _ => trivial
  refine List.Pairwise.imp (fun {a b} hab => ?_) hsorted
  simp only [sortsAfter_createdAt, decide_eq_false_iff_not] at hab
  omega

theorem map_workflowId (h : RowsKeyed s) :
    s.workflows.values.map (·.workflowId) = s.workflows.keys := by
  simp only [JsMap.values, JsMap.keys, map_map]
  apply map_congr_left
  intro e he
  exact h e.1 e.2 ((mem_entries_iff s.workflows e.1 e.2).mp he)

theorem nodup_listing (h : RowsKeyed s) (status : StaleStatus) :
    ((s.listing status).map (·.workflowId)).Nodup := by
  have hperm : (s.listing status).Perm (s.workflows.values.filter fun wf =>
      matchesListFilter wf { status := some status.toStatus } s.ns) := StableSort.sort_perm _
  apply (hperm.map (·.workflowId)).nodup_iff.mpr
  have hkeys : (s.workflows.values.map (·.workflowId)).Nodup := by
    rw [map_workflowId h]
    exact s.workflows.nodup
  exact (filter_sublist.map _).nodup hkeys

theorem get_of_mem_listing (h : RowsKeyed s) {status : StaleStatus} (hwf : wf ∈ s.listing status) :
    s.workflows.get wf.workflowId = some wf := by
  obtain ⟨id, hget⟩ := (mem_values_iff _ _).mp (mem_listing.mp hwf).1
  rw [h id wf hget]
  exact hget

theorem rowsKeyed_endsRuns {action : StaleTerminationAction} {ids : List String}
    {s' : InMemoryWorkflowStorage} (h : RowsKeyed s) (hends : EndsRuns action ids s s') :
    RowsKeyed s' := by
  intro id wf hget
  rw [hends.get, Option.map_eq_some_iff] at hget
  obtain ⟨row, hrow, rfl⟩ := hget
  split <;> exact h id row hrow

theorem listing_endsRuns {action : StaleTerminationAction} {ids : List String}
    {s' : InMemoryWorkflowStorage} (hkeyed : RowsKeyed s) (h : EndsRuns action ids s s')
    (status : StaleStatus) :
    s'.listing status = (s.listing status).filter fun wf => decide (wf.workflowId ∉ ids) := by
  have hvalues : s'.workflows.values = s.workflows.values.map fun wf =>
      if wf.workflowId ∈ ids then action.endedRow s.now wf else wf := by
    rw [h.rows]
    simp only [JsMap.values, JsMap.mapValues, map_map]
    apply map_congr_left
    intro e he
    have hid := hkeyed e.1 e.2 ((mem_entries_iff s.workflows e.1 e.2).mp he)
    simp [hid]
  have hended : ∀ wf : MutableWorkflow,
      matchesListFilter (action.endedRow s.now wf) { status := some status.toStatus } s.ns =
        false := by
    intro wf
    rw [Bool.eq_false_iff, Ne, matches_iff]
    intro hmatch
    cases status <;> cases hmatch.2
  have hrows : ∀ l : List MutableWorkflow,
      (l.map fun wf => if wf.workflowId ∈ ids then action.endedRow s.now wf else wf).filter
        (fun wf => matchesListFilter wf { status := some status.toStatus } s.ns) =
      (l.filter fun wf => matchesListFilter wf { status := some status.toStatus } s.ns).filter
        fun wf => decide (wf.workflowId ∉ ids) := by
    intro l
    induction l with
    | nil => rfl
    | cons wf l ih =>
      by_cases hid : wf.workflowId ∈ ids
      · simp only [map_cons, hid, if_true, filter_cons, hended, Bool.false_eq_true,
          if_false, ih]
        split <;> simp [hid]
      · simp only [map_cons, hid, if_false, filter_cons, ih]
        split <;> simp [hid]
  rw [listing, listing, hvalues, h.ns, sortWorkflowRows, sortWorkflowRows, hrows]
  exact StableSort.sort_filter consistent_createdAt (fun _ _ => trivial) _

end InMemoryWorkflowStorage

/-! ## One status -/

namespace Sweep

open InMemoryWorkflowStorage

/-- Someone drives the run. -/
def held (s : InMemoryWorkflowStorage) (wf : MutableWorkflow) : Bool :=
  s.leases.isHeld wf.workflowId s.now

def freeIds (s : InMemoryWorkflowStorage) (rows : List MutableWorkflow) : List String :=
  (rows.filter fun wf => !held s wf).map (·.workflowId)

/-- What a sweep that started in `s` has done once it has been over the rows `done`. -/
structure Swept (s : InMemoryWorkflowStorage) (action : StaleTerminationAction) (n : Nat)
    (done : List MutableWorkflow) (w : Sweep InMemoryWorkflowStorage) : Prop where
  tried : w.tried.reverse = done.map (·.workflowId)
  stuck : w.stuck.reverse = (done.filter (held s)).map (·.workflowId)
  storage : EndsRuns action (freeIds s done) s w.storage
  terminated : w.terminated = n + (freeIds s done).length

variable {s : InMemoryWorkflowStorage} {action : StaleTerminationAction} {cutoff : Int}
  {status : StaleStatus} {n : Nat} {done after : List MutableWorkflow}
  {w : Sweep InMemoryWorkflowStorage} {wf : MutableWorkflow}

theorem Swept.start (s : InMemoryWorkflowStorage) (action : StaleTerminationAction) (n : Nat) :
    Swept s action n [] ⟨s, [], [], false, n⟩ := ⟨rfl, rfl, EndsRuns.refl action s, rfl⟩

theorem mem_freeIds {rows : List MutableWorkflow} {id : String} :
    id ∈ freeIds s rows ↔ ∃ wf ∈ rows, wf.workflowId = id ∧ s.leases.live s.now id = none := by
  simp only [freeIds, held, InMemoryLeaseTable.isHeld, mem_map, mem_filter,
    Bool.not_eq_true', Option.isSome_eq_false_iff, Option.isNone_iff_eq_none]
  constructor
  · rintro ⟨wf, ⟨hmem, hfree⟩, rfl⟩
    exact ⟨wf, hmem, rfl, hfree⟩
  · rintro ⟨wf, hmem, rfl, hfree⟩
    exact ⟨wf, ⟨hmem, hfree⟩, rfl⟩

theorem not_mem_done (hkeyed : RowsKeyed s) (hsplit : s.listing status = done ++ wf :: after) :
    wf.workflowId ∉ done.map (·.workflowId) := by
  have hnd := nodup_listing hkeyed status
  rw [hsplit, map_append, map_cons, nodup_append] at hnd
  intro hmem
  exact hnd.2.2 _ hmem _ mem_cons_self rfl

theorem visitRow_swept (hkeyed : RowsKeyed s) (hsplit : s.listing status = done ++ wf :: after)
    (h : Swept s action n done w) :
    ∃ w', w.visitRow (inMemoryPages fun _ => false) action wf.workflowId = (w', .ok ()) ∧
      Swept s action n (done ++ [wf]) w' ∧ w'.progressed = (w.progressed || !held s wf) := by
  have hmem : wf ∈ s.listing status := by simp [hsplit]
  have hfresh := not_mem_done hkeyed hsplit
  have htried : wf.workflowId ∉ w.tried := by
    rw [← mem_reverse, h.tried]
    exact hfresh
  have hinsert : (w.tried.insert wf.workflowId).reverse =
      (done ++ [wf]).map (·.workflowId) := by
    simp [insert_of_not_mem htried, h.tried]
  have hlive := h.storage.locks wf.workflowId
  rw [← h.storage.now] at hlive
  rw [visitRow, if_neg htried]
  cases hlock : s.leases.live s.now wf.workflowId with
  | some lease =>
    -- Someone drives the run: it gets stuck, and nothing else happens.
    have hheld : held s wf = true := by simp [held, InMemoryLeaseTable.isHeld, hlock]
    rw [h.storage.now, hlock, ← h.storage.now] at hlive
    have htry : (inMemoryPages fun _ => false).tryLock w.storage wf.workflowId
        staleTerminationLockMs = (w.storage, ⟨false, none⟩) := tryLock_held hlive
    have hstuck : wf.workflowId ∉ w.stuck := by
      rw [← mem_reverse, h.stuck]
      intro hin
      obtain ⟨row, hrow, hid⟩ := mem_map.mp hin
      exact hfresh (hid ▸ mem_map_of_mem (mem_filter.mp hrow).1)
    simp only [htry]
    refine ⟨_, rfl, ⟨hinsert, ?_, ?_, ?_⟩, ?_⟩
    · simp [addStuck, insert_of_not_mem hstuck, h.stuck, filter_append, hheld]
    · simpa [addStuck, freeIds, filter_append, hheld] using h.storage
    · simpa [addStuck, freeIds, filter_append, hheld] using h.terminated
    · simp [addStuck, hheld]
  | none =>
    -- The run is locked, and its row is still the one the sweep started from.
    have hheld : held s wf = false := by simp [held, InMemoryLeaseTable.isHeld, hlock]
    rw [h.storage.now, hlock, ← h.storage.now] at hlive
    have hget : w.storage.workflows.get wf.workflowId = some wf := by
      have hnot : wf.workflowId ∉ freeIds s done := by
        intro hin
        obtain ⟨row, hrow, hid, -⟩ := mem_freeIds.mp hin
        exact hfresh (hid ▸ mem_map_of_mem hrow)
      rw [h.storage.get, get_of_mem_listing hkeyed hmem]
      simp [hnot]
    have hopen : cancellable wf.status = true := by
      rw [(mem_listing.mp hmem).2.2]
      cases status <;> rfl
    have htry : (inMemoryPages fun _ => false).tryLock w.storage wf.workflowId
        staleTerminationLockMs = _ := tryLock_free hlive
    have hterm := terminate_free action (w := { w with
      tried := w.tried.insert wf.workflowId
      storage := (w.storage.tryLock wf.workflowId staleTerminationLockMs none).1 })
      hget hopen hlive rfl
    have htoken : ((inMemoryPages fun _ => false).tryLock w.storage wf.workflowId
        staleTerminationLockMs).2 = ⟨true, some w.storage.terminationLease.token⟩ := by rw [htry]
    have hends := endsRuns_afterEnding action hget hlive w.storage.terminationLease
    simp only [htoken]
    refine ⟨_, hterm, ⟨hinsert, ?_, ?_, ?_⟩, ?_⟩
    · simpa [filter_append, hheld] using h.stuck
    · have htrans := h.storage.trans hends
      simpa [freeIds, filter_append, hheld] using htrans
    · simp [h.terminated, freeIds, filter_append, hheld]
      omega
    · simp [hheld]

theorem visitPage_swept (cutoff : Int) (hkeyed : RowsKeyed s) (page : List MutableWorkflow)
    (hsplit : s.listing status = done ++ (page ++ after)) (h : Swept s action n done w) :
    ∃ w' seen left,
      visitPage (inMemoryPages fun _ => false) action cutoff (page.map (·.toWorkflowState)) w =
        (w', .ok ()) ∧ page = seen ++ left ∧ Swept s action n (done ++ seen) w' ∧
      (∀ wf ∈ seen, wf.createdAt < cutoff) ∧ (∀ wf ∈ left.head?, cutoff ≤ wf.createdAt) ∧
      w'.progressed = (w.progressed || seen.any fun wf => !held s wf) := by
  induction page generalizing done w with
  | nil => exact ⟨w, [], [], rfl, rfl, by simpa using h, by simp, by simp, by simp⟩
  | cons wf page ih =>
    by_cases hstale : cutoff ≤ wf.createdAt
    · refine ⟨w, [], wf :: page, ?_, rfl, by simpa using h, by simp, by simpa using hstale,
        by simp⟩
      simp [visitPage, hstale]
    · obtain ⟨w₁, hrow, hswept, hprogress⟩ := visitRow_swept hkeyed hsplit h
      obtain ⟨w₂, seen, left, hpage, heq, hswept', hseen, hleft, hprogress'⟩ :=
        ih (by simp [hsplit]) hswept
      refine ⟨w₂, wf :: seen, left, ?_, by simp [heq], by simpa using hswept', ?_, hleft, ?_⟩
      · have hstep : ¬ wf.toWorkflowState.createdAt ≥ cutoff := hstale
        rw [map_cons, visitPage, if_neg hstep]
        simp only [hrow, hpage]
      · intro x hx
        cases mem_cons.mp hx with
        | inl heq => exact heq ▸ Int.not_le.mp hstale
        | inr hx => exact hseen x hx
      · rw [hprogress', hprogress, any_cons, Bool.or_assoc]

variable {rest : List MutableWorkflow}

theorem page_swept (hkeyed : RowsKeyed s)
    (hsplit : s.listing status = done ++ rest) (h : Swept s action n done w) :
    w.page (inMemoryPages fun _ => false) status =
      (rest.take recoveryPageSize).map (·.toWorkflowState) := by
  have hstuck : w.stuck.length = (done.filter (held s)).length := by
    rw [← length_reverse, h.stuck, length_map]
  have hdone : done.filter (fun wf => decide (wf.workflowId ∉ freeIds s done)) =
      done.filter (held s) := by
    apply filter_congr
    intro wf hwf
    have hfree : wf.workflowId ∈ freeIds s done ↔ held s wf = false := by
      rw [mem_freeIds]
      simp only [held, InMemoryLeaseTable.isHeld, Option.isSome_eq_false_iff,
        Option.isNone_iff_eq_none]
      exact ⟨fun hrow => by obtain ⟨_, -, -, hlive⟩ := hrow; exact hlive,
        fun hlive => ⟨wf, hwf, rfl, hlive⟩⟩
    cases hheld : held s wf <;> simp [hfree, hheld]
  have hrest : rest.filter (fun wf => decide (wf.workflowId ∉ freeIds s done)) = rest := by
    rw [filter_eq_self]
    intro wf hwf
    have hnd := nodup_listing hkeyed status
    rw [hsplit, map_append, nodup_append] at hnd
    simp only [decide_eq_true_eq]
    intro hin
    obtain ⟨row, hrow, hid, -⟩ := mem_freeIds.mp hin
    exact hnd.2.2 _ (mem_map_of_mem hrow) _ (mem_map_of_mem hwf) hid
  show (((w.storage.listing status).drop w.stuck.length).take recoveryPageSize).map _ = _
  rw [listing_endsRuns hkeyed h.storage, hsplit, filter_append, hdone, hrest, hstuck,
    drop_left]

/-- Nothing after a row that is not stale is stale. -/
theorem all_fresh {seen left : List MutableWorkflow} {k : Nat}
    (hsorted : rest.Pairwise fun a b => a.createdAt ≤ b.createdAt)
    (heq : rest.take k = seen ++ left) (hshort : left = [] → rest.length = seen.length)
    (hleft : ∀ wf ∈ left.head?, cutoff ≤ wf.createdAt) :
    ∃ fresh, rest = seen ++ fresh ∧ ∀ wf ∈ fresh, cutoff ≤ wf.createdAt := by
  have hrest : rest = seen ++ (left ++ rest.drop k) := by
    rw [← append_assoc, ← heq, take_append_drop]
  refine ⟨left ++ rest.drop k, hrest, ?_⟩
  rw [hrest] at hsorted
  have htail := (pairwise_append.mp hsorted).2.1
  cases hl : left with
  | nil =>
    have hlen := congrArg List.length hrest
    have hshort := hshort hl
    rw [hl] at hlen
    simp only [nil_append, length_append] at hlen
    have hnil : rest.drop k = [] := eq_nil_of_length_eq_zero (by omega)
    simp [hnil]
  | cons first left' =>
    rw [hl] at htail hleft
    have hfirst : cutoff ≤ first.createdAt := hleft first rfl
    intro wf hwf
    cases mem_cons.mp hwf with
    | inl heq => exact heq ▸ hfirst
    | inr hwf =>
      have := (pairwise_cons.mp htail).1 wf hwf
      omega

theorem sweepStatus_swept (hkeyed : RowsKeyed s) {fuel : Nat}
    (hsplit : s.listing status = done ++ rest) (hdone : ∀ wf ∈ done, wf.createdAt < cutoff)
    (h : Swept s action n done w) {r : Sweep InMemoryWorkflowStorage × Except StorageError Unit}
    (hr : sweepStatus (inMemoryPages fun _ => false) action cutoff status fuel w = some r) :
    r.2 = .ok () ∧
      Swept s action n
        ((s.listing status).filter fun wf => decide (wf.createdAt < cutoff)) r.1 := by
  induction fuel generalizing done rest w with
  | zero => cases hr
  | succ fuel ih =>
    have hsorted := sorted_listing s status
    rw [hsplit] at hsorted
    have hstart : Swept s action n done { w with progressed := false } := { h with }
    have hsplit' : s.listing status =
        done ++ (rest.take recoveryPageSize ++ rest.drop recoveryPageSize) := by
      rw [take_append_drop, hsplit]
    obtain ⟨w', seen, left, hvisit, heq, hswept, hseen, hleft, hprogress⟩ :=
      visitPage_swept cutoff hkeyed _ hsplit' hstart
    have hstale : ∀ wf ∈ done ++ seen, wf.createdAt < cutoff := by
      intro wf hwf
      cases mem_append.mp hwf with
      | inl hwf => exact hdone wf hwf
      | inr hwf => exact hseen wf hwf
    -- Once nothing stale is left, what was gone over is what is stale.
    have hall : (left = [] → rest.length = seen.length) → Swept s action n
        ((s.listing status).filter fun wf => decide (wf.createdAt < cutoff)) w' := by
      intro hshort
      obtain ⟨fresh, hrest, hfresh⟩ :=
        all_fresh (pairwise_append.mp hsorted).2.1 heq hshort hleft
      have hkept : (done ++ seen).filter (fun wf => decide (wf.createdAt < cutoff)) =
          done ++ seen := by
        rw [filter_eq_self]
        intro wf hwf
        simpa using hstale wf hwf
      have hdropped : fresh.filter (fun wf => decide (wf.createdAt < cutoff)) = [] := by
        rw [filter_eq_nil_iff]
        intro wf hwf
        simpa using hfresh wf hwf
      rw [hsplit, hrest, ← append_assoc, filter_append, hkept, hdropped,
        append_nil]
      exact hswept
    rw [sweepStatus, page_swept hkeyed hsplit h] at hr
    simp only [hvisit] at hr
    split at hr
    · -- The last page had nothing new: it starts with a row that is not stale, or is empty.
      rename_i hlast
      cases hr
      refine ⟨rfl, hall fun hnil => ?_⟩
      simp only [Bool.and_eq_true, Bool.not_eq_true', beq_iff_eq] at hlast
      have hnone : seen = [] := by
        have hcount : w'.stuck.length = w.stuck.length + (seen.filter (held s)).length := by
          rw [← length_reverse, hswept.stuck, ← w.stuck.length_reverse, h.stuck]
          simp [filter_append]
        cases seen with
        | nil => rfl
        | cons wf seen =>
          have hp := hprogress
          rw [hlast.1] at hp
          have hheld : held s wf = true := by
            simp only [Bool.false_or, any_cons] at hp
            cases hh : held s wf with
            | true => rfl
            | false => simp [hh] at hp
          simp only [filter_cons, hheld, if_true, length_cons] at hcount
          omega
      have hempty : rest.take recoveryPageSize = [] := by rw [heq, hnone, hnil]; rfl
      have hlen := congrArg List.length hempty
      simp only [length_take, length_nil, recoveryPageSize] at hlen
      simp only [hnone, length_nil]
      omega
    · split at hr
      · -- A short page is the last one.
        rename_i hshort
        cases hr
        refine ⟨rfl, hall fun hnil => ?_⟩
        have hlen := congrArg List.length heq
        simp only [Bool.and_eq_true, decide_eq_true_eq, length_map] at hshort
        rw [hnil, append_nil] at hlen
        have htake := length_take (i := recoveryPageSize) (l := rest)
        omega
      · have hnext : s.listing status = (done ++ seen) ++ (left ++ rest.drop recoveryPageSize) := by
          rw [hsplit', heq]
          simp
        exact ih hnext hstale hswept hr

end Sweep

/-! ## All statuses -/

/-- Whether stale termination is about the run: its status is listed, it is older than the
threshold, and nobody drives it. -/
def Stale (s : InMemoryWorkflowStorage) (cutoff : Int) (statuses : List StaleStatus)
    (id : String) (wf : MutableWorkflow) : Prop :=
  wf.status ∈ statuses.map (·.toStatus) ∧ wf.createdAt < cutoff ∧
    s.leases.isHeld id s.now = false

namespace Sweep

open InMemoryWorkflowStorage

variable {s s' : InMemoryWorkflowStorage} {action : StaleTerminationAction} {cutoff : Int}
  {ids : List String}

theorem stale_endsRuns (h : EndsRuns action ids s s') (statuses : List StaleStatus) (id : String) :
    (∃ wf, s'.workflows.get id = some wf ∧ s'.inScope wf = true ∧ Stale s' cutoff statuses id wf) ↔
      id ∉ ids ∧
      ∃ wf, s.workflows.get id = some wf ∧ s.inScope wf = true ∧ Stale s cutoff statuses id wf := by
  have hheld : s'.leases.isHeld id s'.now = s.leases.isHeld id s.now := by
    simp only [InMemoryLeaseTable.isHeld, h.now, h.locks]
  have hscope : ∀ wf, s'.inScope wf = s.inScope wf := by
    intro wf
    simp only [inScope, h.ns]
  simp only [h.get, Stale, hheld, hscope]
  cases hget : s.workflows.get id with
  | none => simp
  | some wf =>
    by_cases hid : id ∈ ids
    · have hfailed : ∀ status : StaleStatus, status.toStatus ≠ .failed := by
        intro status
        cases status <;> rintro ⟨⟩
      simp [hid, StaleTerminationAction.endedRow, hfailed]
    · simp [hid]

theorem mem_freeIds_stale (hkeyed : RowsKeyed s) {status : StaleStatus} {id : String} :
    id ∈ freeIds s ((s.listing status).filter fun wf => decide (wf.createdAt < cutoff)) ↔
      ∃ wf, s.workflows.get id = some wf ∧ s.inScope wf = true ∧ Stale s cutoff [status] id wf := by
  simp only [mem_freeIds, mem_filter, mem_listing, decide_eq_true_eq, Stale,
    InMemoryLeaseTable.isHeld, Option.isSome_eq_false_iff, Option.isNone_iff_eq_none,
    map_cons, map_nil, mem_singleton]
  constructor
  · rintro ⟨wf, ⟨⟨hvalue, hscope, hstatus⟩, hold⟩, rfl, hfree⟩
    obtain ⟨id, hget⟩ := (mem_values_iff _ _).mp hvalue
    have hid := hkeyed id wf hget
    subst hid
    exact ⟨wf, hget, hscope, hstatus, hold, hfree⟩
  · rintro ⟨wf, hget, hscope, hstatus, hold, hfree⟩
    exact ⟨wf, ⟨⟨(mem_values_iff _ _).mpr ⟨id, hget⟩, hscope, hstatus⟩, hold⟩,
      hkeyed id wf hget, hfree⟩

theorem sweepStatuses_swept (hkeyed : RowsKeyed s) {fuel : Nat} {statuses : List StaleStatus}
    {n : Nat} {r : InMemoryWorkflowStorage × Except StorageError Nat}
    (hr : sweepStatuses (inMemoryPages fun _ => false) action cutoff fuel statuses s n = some r) :
    ∃ ended, r.2 = .ok (n + ended.length) ∧ ended.Nodup ∧ EndsRuns action ended s r.1 ∧
      ∀ id, id ∈ ended ↔
        ∃ wf, s.workflows.get id = some wf ∧ s.inScope wf = true ∧
          Stale s cutoff statuses id wf := by
  induction statuses generalizing s n with
  | nil =>
    cases hr
    exact ⟨[], rfl, nodup_nil, EndsRuns.refl action s, by simp [Stale]⟩
  | cons status rest ih =>
    rw [sweepStatuses] at hr
    cases hsweep : sweepStatus (inMemoryPages fun _ => false) action cutoff status fuel
        ⟨s, [], [], false, n⟩ with
    | none => simp [hsweep] at hr
    | some x =>
      obtain ⟨hok, hswept⟩ := sweepStatus_swept hkeyed
        (show s.listing status = [] ++ s.listing status from rfl) (by simp)
        (Swept.start s action n) hsweep
      obtain ⟨w, y⟩ := x
      cases hok
      rw [hsweep] at hr
      obtain ⟨later, hcount, hnd, hends, hmem⟩ := ih (rowsKeyed_endsRuns hkeyed hswept.storage) hr
      have hfirst : (freeIds s ((s.listing status).filter fun wf =>
          decide (wf.createdAt < cutoff))).Nodup := by
        have hsub := (filter_sublist (p := fun wf => !held s wf)).trans
          (filter_sublist (l := s.listing status)
            (p := fun wf => decide (wf.createdAt < cutoff)))
        exact (hsub.map _).nodup (nodup_listing hkeyed status)
      refine ⟨_ ++ later, ?_, ?_, hswept.storage.trans hends, ?_⟩
      · rw [hcount, hswept.terminated, length_append, Nat.add_assoc]
      · -- What is ended later was not ended before.
        rw [nodup_append]
        refine ⟨hfirst, hnd, ?_⟩
        intro a ha b hb hab
        rw [hmem, stale_endsRuns hswept.storage] at hb
        exact hb.1 (hab ▸ ha)
      · intro id
        rw [mem_append, hmem, stale_endsRuns hswept.storage, mem_freeIds_stale hkeyed]
        by_cases hnow : ∃ wf, s.workflows.get id = some wf ∧ s.inScope wf = true ∧
            Stale s cutoff [status] id wf
        · simp only [hnow, true_or, true_iff]
          obtain ⟨wf, hget, hscope, hstale⟩ := hnow
          refine ⟨wf, hget, hscope, ?_, hstale.2⟩
          have hstatus := hstale.1
          simp only [map_cons, map_nil, mem_singleton] at hstatus
          simp [hstatus]
        · simp only [hnow, not_false_eq_true, true_and, false_or]
          refine exists_congr fun wf => and_congr_right fun hget => and_congr_right fun hscope => ?_
          have hother : wf.createdAt < cutoff ∧ s.leases.isHeld id s.now = false →
              wf.status ≠ status.toStatus := by
            intro hold hstatus
            exact hnow ⟨wf, hget, hscope, by simp [hstatus], hold⟩
          simp only [Stale, map_cons, mem_cons]
          constructor
          · intro h
            exact ⟨.inr h.1, h.2⟩
          · intro h
            exact ⟨h.1.resolve_left (hother h.2), h.2⟩

end Sweep

end Promin.Durable

import Promin.ForStd.Text
import Promin.Spec.RunRows

/-!
# Fencing safety

Over every run of the storage, run locks get greater and greater tokens, at most one token
a workflow is accepted, and a write under another changes nothing.
-/

namespace Promin.Durable

open InMemoryWorkflowStorage InMemoryLeaseTable Machine JsMap

/-! ## Accepted tokens -/

/-- `checkFence` lets writes under `token` through. An empty token is no token. -/
def Accepts (s : InMemoryWorkflowStorage) (w token : String) : Prop :=
  token ≠ "" ∧ FenceAccepts s w (some token)

variable {token w : String} {s : InMemoryWorkflowStorage}

theorem accepts_iff :
    Accepts s w token ↔
      token ≠ "" ∧ ∃ lease, s.leases.leases.get w = some lease ∧ lease.token = token ∧
        s.now < lease.expiresAt := by
  unfold Accepts FenceAccepts checkFence
  refine and_congr_right fun hne => ?_
  have htruthy : truthy (some token) = true := by simp [truthy, hne]
  rw [htruthy]
  simp only [Bool.not_true, Bool.false_eq_true, ↓reduceIte, Option.getD_some]
  cases hget : s.leases.leases.get w with
  | none => simp
  | some lease =>
    by_cases htok : lease.token = token
    · by_cases hexp : lease.expiresAt ≤ s.now
      · have hexp' : ¬ s.now < lease.expiresAt := by omega
        simp [htok, hexp, hexp']
      · have hexp' : s.now < lease.expiresAt := by omega
        simp [htok, hexp, hexp']
    · simp [htok]

private theorem fenceAccepts_cases {guard_ : FenceGuard} (h : FenceAccepts s w guard_) :
    truthy guard_ = false ∨ ∃ token, guard_ = some token ∧ Accepts s w token := by
  cases guard_ with
  | none => exact .inl rfl
  | some token =>
    by_cases hne : token = ""
    · subst hne
      exact .inl rfl
    · exact .inr ⟨token, rfl, hne, h⟩

/-! ## What one call does to a lock -/

/-- Neither the locks nor the clock changed, and not the namespace. -/
def SameLocks (s s' : InMemoryWorkflowStorage) : Prop :=
  s'.leases = s.leases ∧ s'.now = s.now ∧ s'.ns = s.ns

private theorem SameLocks.refl (s : InMemoryWorkflowStorage) : SameLocks s s := ⟨rfl, rfl, rfl⟩

private theorem fenced_sameLocks {α : Type} {workflowId : String}
    {guard_ : FenceGuard} {body : InMemoryWorkflowStorage × Except StorageError α}
    (h : SameLocks s body.1) : SameLocks s (s.fenced workflowId guard_ body).1 :=
  fenced_state (.refl s) h

private theorem release_cases (t : InMemoryLeaseTable) (workflowId : String) (g : FenceGuard) :
    t.release workflowId g = t ∨
    ((truthy g = true → ∃ lease, t.leases.get workflowId = some lease ∧ g = some lease.token) ∧
      t.release workflowId g = t.forget workflowId) := by
  unfold release forget
  cases hget : t.leases.get workflowId with
  | none => exact .inl rfl
  | some lease =>
    cases hfenced : truthy g with
    | true =>
      by_cases htok : g = some lease.token
      · exact .inr ⟨fun _ => ⟨lease, rfl, htok⟩, by simp [htok]⟩
      · exact .inl (by simp [htok])
    | false =>
      by_cases hmine : lease.lockedBy = t.instanceId
      · exact .inr ⟨nofun, by simp [hmine]⟩
      · exact .inl (by simp [hmine])

private theorem purgeLoop_leases (window : PurgeWindow) (limit : Int)
    (l : List (String × MutableWorkflow)) (deleted : Nat) (s : InMemoryWorkflowStorage) :
    (purgeLoop window limit l deleted s).1.ns = s.ns ∧
    (purgeLoop window limit l deleted s).1.now = s.now ∧
    (purgeLoop window limit l deleted s).1.leases.nextFenceToken = s.leases.nextFenceToken ∧
    ∀ w, (purgeLoop window limit l deleted s).1.leases.leases.get w = s.leases.leases.get w ∨
      (purgeLoop window limit l deleted s).1.leases.leases.get w = none := by
  induction l generalizing deleted s with
  | nil => exact ⟨rfl, rfl, rfl, fun _ => .inl rfl⟩
  | cons e rest ih =>
    obtain ⟨id, wf⟩ := e
    simp only [purgeLoop]
    split
    · exact ⟨rfl, rfl, rfl, fun _ => .inl rfl⟩
    · split
      · obtain ⟨hns, hnow, hnext, hleases⟩ := ih (deleted + 1) (s.deleteRun id wf)
        refine ⟨hns, hnow, hnext, fun w => ?_⟩
        have hforget : (s.deleteRun id wf).leases.leases.get w =
            if id = w then none else s.leases.leases.get w := get_delete _ _ _
        rcases hleases w with h | h
        · rw [h, hforget]
          split
          · exact .inr rfl
          · exact .inl rfl
        · exact .inr h
      · exact ih deleted s

inductive LeaseChange (s : InMemoryWorkflowStorage) (o : StorageOp) (w : String) :
    Option Lease → Option Lease → Prop where
  | same (lease : Option Lease) : LeaseChange s o w lease lease
  | acquired {old : Option Lease} {lease : Lease}
      (htoken : lease.token = toString s.leases.nextFenceToken) :
      LeaseChange s o w old (some lease)
  | extended {lease : Lease} {ms : Int} {g : FenceGuard} (ho : o = .heartbeat w ms g)
      (hfence : FenceAccepts s w g) :
      LeaseChange s o w (some lease) (some { lease with expiresAt := s.now + ms })
  | dropped {lease : Lease} : LeaseChange s o w (some lease) none

/-- What one call does to the lock table: the counter goes up by the tokens handed out,
    the clock never goes back, and a lock changes only as `LeaseChange` says. -/
structure LocksStep (s : InMemoryWorkflowStorage) (o : StorageOp) : Prop where
  ns : (storage.next s o).ns = s.ns
  now : s.now ≤ (storage.next s o).now
  counter : s.leases.nextFenceToken ≤ (storage.next s o).leases.nextFenceToken
  minted : ∀ w, LeaseChange s o w (s.leases.leases.get w)
    ((storage.next s o).leases.leases.get w)
  fresh : ∀ w lease, (storage.next s o).leases.leases.get w = some lease →
    (∃ old, s.leases.leases.get w = some old ∧ old.token = lease.token) ∨
    (lease.token = toString s.leases.nextFenceToken ∧
      s.leases.nextFenceToken < (storage.next s o).leases.nextFenceToken)

variable {o : StorageOp}

private theorem SameLocks.locksStep (h : SameLocks s (storage.next s o)) : LocksStep s o := by
  constructor
  · exact h.2.2
  · rw [h.2.1]
  · rw [h.1]
  · intro w
    rw [h.1]
    exact .same _
  · intro w lease hget
    rw [h.1] at hget
    exact .inl ⟨lease, hget, rfl⟩

private theorem rowCall_locksStep (h : RowCall o) : LocksStep s o := by
  obtain ⟨hleases, hnow, hns, -⟩ := rowCall_rowsOnly s h
  exact SameLocks.locksStep ⟨hleases, hnow, hns⟩

private theorem tryLock_locksStep (s : InMemoryWorkflowStorage) (workflowId : String) (ms : Int)
    (attemptId : Option String) : LocksStep s (.tryLock workflowId ms attemptId) := by
  have hstep : SameLocks s (storage.next s (.tryLock workflowId ms attemptId)) ∨
      ∃ lease, lease.token = toString s.leases.nextFenceToken ∧
        storage.next s (.tryLock workflowId ms attemptId) =
          { s with leases := { s.leases with
              nextFenceToken := s.leases.nextFenceToken + 1
              leases := s.leases.leases.set workflowId lease } } := by
    show SameLocks s { s with leases := (s.leases.tryAcquire s.now workflowId ms attemptId).1 } ∨
      ∃ lease, _ ∧ { s with leases := (s.leases.tryAcquire s.now workflowId ms attemptId).1 } = _
    unfold tryAcquire
    cases s.leases.live s.now workflowId with
    | some lease =>
      simp only
      split <;> exact .inl ⟨rfl, rfl, rfl⟩
    | none => exact .inr ⟨_, rfl, rfl⟩
  rcases hstep with h | ⟨lease, htoken, h⟩
  · exact h.locksStep
  · constructor
    · rw [h]
    · rw [h]
    · rw [h]
      exact Nat.le_succ _
    · intro w
      rw [h]
      simp only [get_set]
      split
      · exact .acquired htoken
      · exact .same _
    · intro w lease' hget
      rw [h] at hget ⊢
      simp only [get_set] at hget
      split at hget
      · cases hget
        exact .inr ⟨htoken, Nat.lt_succ_self _⟩
      · exact .inl ⟨lease', hget, rfl⟩

private theorem heartbeat_locksStep (s : InMemoryWorkflowStorage) (workflowId : String) (ms : Int)
    (g : FenceGuard) : LocksStep s (.heartbeat workflowId ms g) := by
  have hstep : SameLocks s (storage.next s (.heartbeat workflowId ms g)) ∨
      ∃ lease, FenceAccepts s workflowId g ∧ s.leases.leases.get workflowId = some lease ∧
        storage.next s (.heartbeat workflowId ms g) =
          { s with leases := { s.leases with
              leases := s.leases.leases.set workflowId
                { lease with expiresAt := s.now + ms } } } := by
    show SameLocks s { s with leases := (s.leases.extend s.now workflowId ms g).1 } ∨
      ∃ lease, _ ∧ _ ∧ { s with leases := (s.leases.extend s.now workflowId ms g).1 } = _
    unfold extend
    cases hfence : s.leases.checkFence s.now workflowId g with
    | error e => exact .inl ⟨rfl, rfl, rfl⟩
    | ok u =>
      cases hget : s.leases.leases.get workflowId with
      | none => exact .inl ⟨rfl, rfl, rfl⟩
      | some lease =>
        simp only
        split
        · exact .inl ⟨rfl, rfl, rfl⟩
        · exact .inr ⟨lease, hfence, rfl, rfl⟩
  rcases hstep with h | ⟨lease, hfence, hlease, h⟩
  · exact h.locksStep
  · constructor
    · rw [h]
    · rw [h]
    · rw [h]
    · intro w
      rw [h]
      by_cases hw : workflowId = w
      · subst hw
        simp only [get_set_self, hlease]
        exact .extended rfl hfence
      · simp only [get_set_ne _ _ hw]
        exact .same _
    · intro w lease' hget
      rw [h] at hget
      simp only [get_set] at hget
      split at hget
      · rename_i hw
        cases hget
        exact .inl ⟨lease, hw ▸ hlease, rfl⟩
      · exact .inl ⟨lease', hget, rfl⟩

private theorem locksStep_of_drops
    (hns : (storage.next s o).ns = s.ns) (hnow : (storage.next s o).now = s.now)
    (hnext : (storage.next s o).leases.nextFenceToken = s.leases.nextFenceToken)
    (hleases : ∀ w, (storage.next s o).leases.leases.get w = s.leases.leases.get w ∨
      (storage.next s o).leases.leases.get w = none) : LocksStep s o := by
  constructor
  · exact hns
  · rw [hnow]
  · rw [hnext]
  · intro w
    rcases hleases w with h | h
    · rw [h]
      exact .same _
    · rw [h]
      cases s.leases.leases.get w with
      | none => exact .same none
      | some lease => exact .dropped
  · intro w lease hget
    rcases hleases w with h | h
    · exact .inl ⟨lease, h ▸ hget, rfl⟩
    · rw [h] at hget
      exact nomatch hget

/-- **What one call does to the locks.** -/
theorem step_locks (s : InMemoryWorkflowStorage) (o : StorageOp) : LocksStep s o := by
  cases o with
  | advance ms =>
    refine ⟨rfl, ?_, Nat.le_refl _, fun w => .same _, fun w lease h => .inl ⟨lease, h, rfl⟩⟩
    show s.now ≤ s.now + ms
    omega
  | startFreshRun workflowId run input g =>
    refine SameLocks.locksStep (fenced_sameLocks ?_)
    cases s.workflows.get workflowId with
    | none => exact .refl s
    | some wf =>
      simp only
      split <;> exact ⟨rfl, rfl, rfl⟩
  | resetSteps workflowId stepNames =>
    refine SameLocks.locksStep ?_
    show SameLocks s (s.resetSteps workflowId stepNames).1
    unfold resetSteps
    cases s.workflows.get workflowId with
    | none => exact .refl s
    | some wf =>
      simp only
      split <;> exact ⟨rfl, rfl, rfl⟩
  | tryLock workflowId ms attemptId => exact tryLock_locksStep s workflowId ms attemptId
  | releaseLock workflowId g =>
    rcases release_cases s.leases workflowId g with h | ⟨-, h⟩
    · refine SameLocks.locksStep ⟨?_, rfl, rfl⟩
      exact h
    · have hleases : (storage.next s (.releaseLock workflowId g)).leases =
          s.leases.forget workflowId := h
      refine locksStep_of_drops rfl rfl (by rw [hleases]; rfl) fun w => ?_
      rw [hleases]
      show (s.leases.leases.delete workflowId).get w = _ ∨
        (s.leases.leases.delete workflowId).get w = _
      rw [get_delete]
      split
      · exact .inr rfl
      · exact .inl rfl
  | heartbeat workflowId ms g => exact heartbeat_locksStep s workflowId ms g
  | purgeCompleted window limit =>
    obtain ⟨hns, hnow, hnext, hleases⟩ := purgeLoop_leases window limit s.workflows.entries 0 s
    exact locksStep_of_drops hns hnow hnext hleases
  | loadJournal workflowId stepName | findDueSleeps now limit =>
    exact SameLocks.locksStep ⟨rfl, rfl, rfl⟩
  | appendEntry a activityName payloadHash exit g
  | appendPendingEntry a activityName payloadHash stepType wakeAt g
  | discardJournalEntries workflowId stepName slots g =>
    exact SameLocks.locksStep (fenced_sameLocks ⟨rfl, rfl, rfl⟩)
  | completePendingEntry a exit g => exact SameLocks.locksStep (fenced_sameLocks ⟨rfl, rfl, rfl⟩)
  | _ => exact rowCall_locksStep trivial

/-! ## Tokens handed out -/

/-- The call takes a free or expired lock, and is told `token`. -/
def Acquires (s : InMemoryWorkflowStorage) (o : StorageOp) (token : String) : Prop :=
  ∃ w ms attemptId, o = .tryLock w ms attemptId ∧ s.leases.live s.now w = none ∧
    storage.out s o = .ok (.locked { acquired := true, token := some token })

def IssuedTokens (s : InMemoryWorkflowStorage) : Prop :=
  ∀ w lease, s.leases.leases.get w = some lease →
    ∃ n, lease.token = toString n ∧ n < s.leases.nextFenceToken

private theorem acquires_counter
    (h : Acquires s o token) : token = toString s.leases.nextFenceToken ∧
      s.leases.nextFenceToken < (storage.next s o).leases.nextFenceToken := by
  obtain ⟨w, ms, attemptId, rfl, hfree, hout⟩ := h
  have hstep : s.leases.tryAcquire s.now w ms attemptId =
      ({ s.leases with
          nextFenceToken := s.leases.nextFenceToken + 1
          leases := s.leases.leases.set w
            { expiresAt := s.now + ms, lockedBy := s.leases.instanceId
              token := toString s.leases.nextFenceToken, attemptId := attemptId } },
        { acquired := true, token := some (toString s.leases.nextFenceToken) }) := by
    unfold tryAcquire
    rw [hfree]
  have hanswer : storage.out s (.tryLock w ms attemptId) =
      .ok (.locked (s.leases.tryAcquire s.now w ms attemptId).2) := rfl
  have hnext : (storage.next s (.tryLock w ms attemptId)).leases =
      (s.leases.tryAcquire s.now w ms attemptId).1 := rfl
  rw [hanswer, hstep] at hout
  rw [hnext, hstep]
  simp only [Except.ok.injEq, StorageAnswer.locked.injEq, TryLockResult.mk.injEq, true_and,
    Option.some.injEq] at hout
  exact ⟨hout.symm, Nat.lt_succ_self _⟩

private theorem issuedTokens_new (config : StorageConfig) :
    IssuedTokens (InMemoryWorkflowStorage.new config) := by
  intro w lease h
  simp [InMemoryWorkflowStorage.new, InMemoryLeaseTable.new] at h

private theorem step_issuedTokens (hs : IssuedTokens s)
    (o : StorageOp) : IssuedTokens (storage.next s o) := by
  intro w lease hget
  have hstep := step_locks s o
  have hcounter := hstep.counter
  rcases hstep.fresh w lease hget with ⟨old, hold, htoken⟩ | ⟨htoken, hlt⟩
  · obtain ⟨n, hn, hlt⟩ := hs w old hold
    exact ⟨n, htoken ▸ hn, by omega⟩
  · exact ⟨_, htoken, hlt⟩

private theorem run_counter (s : InMemoryWorkflowStorage) (ops : List StorageOp) :
    s.leases.nextFenceToken ≤ (storage.run s ops).leases.nextFenceToken := by
  induction ops generalizing s with
  | nil => exact Nat.le_refl _
  | cons o ops ih => exact Nat.le_trans (step_locks s o).counter (ih _)

/-! ## Spent tokens -/

def RevivesExpired (s : InMemoryWorkflowStorage) (o : StorageOp) : Prop :=
  ∃ w ms g lease, o = .heartbeat w ms g ∧ truthy g = false ∧ 0 < ms ∧
    s.leases.leases.get w = some lease ∧ lease.expiresAt ≤ s.now

def ReleasesExpired (s : InMemoryWorkflowStorage) (o : StorageOp) : Prop :=
  ∃ w token lease, o = .releaseLock w (some token) ∧ token ≠ "" ∧
    s.leases.leases.get w = some lease ∧ lease.token = token ∧ lease.expiresAt ≤ s.now

/-- The token was handed out and is not accepted for `w`. -/
def Spent (w token : String) (s : InMemoryWorkflowStorage) : Prop :=
  (∃ n, token = toString n ∧ n < s.leases.nextFenceToken) ∧ ¬ Accepts s w token

private theorem step_spent
    (h : Spent w token s) (ho : ¬ RevivesExpired s o) : Spent w token (storage.next s o) := by
  obtain ⟨⟨n, hn, hlt⟩, hdead⟩ := h
  have hstep := step_locks s o
  have hcounter := hstep.counter
  have hnow := hstep.now
  refine ⟨⟨n, hn, by omega⟩, fun haccepts => hdead ?_⟩
  obtain ⟨hne, lease', hget', htok, hlive⟩ := accepts_iff.mp haccepts
  have hchange := hstep.minted w
  rw [hget'] at hchange
  generalize hget : s.leases.leases.get w = before at hchange
  cases hchange with
  | same => exact accepts_iff.mpr ⟨hne, lease', hget, htok, by omega⟩
  | acquired htoken =>
    -- A new token is greater than every one handed out.
    have := Nat.toString_inj (htoken.symm.trans (htok.trans hn))
    omega
  | @extended lease ms g ho' hfence =>
    simp only at htok hlive
    rcases fenceAccepts_cases hfence with hfree | ⟨t, rfl, haccepts'⟩
    · refine accepts_iff.mpr ⟨hne, lease, hget, htok, ?_⟩
      by_contra hexpired
      exact ho ⟨w, ms, g, lease, ho', hfree, by omega, hget, by omega⟩
    · obtain ⟨-, lease₀, hget₀, htok₀, hlive₀⟩ := accepts_iff.mp haccepts'
      rw [hget] at hget₀
      cases hget₀
      exact accepts_iff.mpr ⟨hne, lease, hget, htok, hlive₀⟩

/-! ## Rejected writes -/

/-- The call is a fenced write of workflow `w` under `token`. -/
inductive CarriesToken (w token : String) : StorageOp → Prop where
  | createWorkflow {p : CreateWorkflowParams} (hw : p.parentWorkflowId = some w) :
      CarriesToken w token (.createWorkflow p (some token))
  | saveStepResult {r : StepResultRecord} (hw : r.workflowId = w) :
      CarriesToken w token (.saveStepResult r (some token))
  | batchSaveStepResults {records : List StepResultRecord} (hw : ∃ r ∈ records, r.workflowId = w) :
      CarriesToken w token (.batchSaveStepResults records (some token))
  | saveStepFailure {r : StepFailureRecord} (hw : r.workflowId = w) :
      CarriesToken w token (.saveStepFailure r (some token))
  | saveTask {stepName : String} {taskIndex : Int} {outcome : TaskOutcome} :
      CarriesToken w token (.saveTask w stepName taskIndex outcome (some token))
  | completeWorkflow {result : JsValue} :
      CarriesToken w token (.completeWorkflow w result (some token))
  | failWorkflow {error : String} {errorTag : Option String} :
      CarriesToken w token (.failWorkflow w error errorTag (some token))
  | tripwireWorkflow {reason : JsValue} :
      CarriesToken w token (.tripwireWorkflow w reason (some token))
  | cancelWorkflow {cascade : Bool} : CarriesToken w token (.cancelWorkflow w cascade (some token))
  | suspendWorkflow {stepName : String} {u : StepUpdate} :
      CarriesToken w token (.suspendWorkflow w stepName u (some token))
  | setWorkflowMetadata {patch : Record} :
      CarriesToken w token (.setWorkflowMetadata w patch (some token))
  | startFreshRun {run : Option Int} {input : Option JsValue} :
      CarriesToken w token (.startFreshRun w run input (some token))
  | releaseLock : CarriesToken w token (.releaseLock w (some token))
  | heartbeat {ms : Int} : CarriesToken w token (.heartbeat w ms (some token))
  | appendStreamChunk {p : AppendStreamChunkParams} (hw : p.workflowId = w) :
      CarriesToken w token (.appendStreamChunk p (some token))
  | saveStepAttempt {record : StepAttemptRecord} (hw : record.workflowId = w) :
      CarriesToken w token (.saveStepAttempt record (some token))
  | checkpointStep {c : StepCheckpoint} (hw : c.workflowId = w) :
      CarriesToken w token (.checkpointStep c (some token))
  | beginCompensation {error : String} {errorTag : Option String} :
      CarriesToken w token (.beginCompensation w error errorTag (some token))
  | saveStepCompensation {stepName : String} {status : StepCompensationStatus}
      {error : Option String} :
      CarriesToken w token (.saveStepCompensation w stepName status error (some token))
  | appendEntry {a : EntryAddress} {name : String} {hash : Option String} {exit : JournalExit}
      (hw : a.workflowId = w) : CarriesToken w token (.appendEntry a name hash exit (some token))
  | appendPendingEntry {a : EntryAddress} {name : String} {hash : Option String}
      {type : JournalStepType} {wakeAt : Option Int} (hw : a.workflowId = w) :
      CarriesToken w token (.appendPendingEntry a name hash type wakeAt (some token))
  | completePendingEntry {a : EntryAddress} {exit : JournalExit} (hw : a.workflowId = w) :
      CarriesToken w token (.completePendingEntry a exit (some token))
  | discardJournalEntries {stepName : String} {slots : List JournalSlot} :
      CarriesToken w token (.discardJournalEntries w stepName slots (some token))

section

variable {s : InMemoryWorkflowStorage} {w token : String}

section

variable (hne : token ≠ "")
include hne

section

variable (h : ¬ Accepts s w token)
include h

private theorem fenced_rejected {α : Type}
    (f : α → StorageAnswer) (body : InMemoryWorkflowStorage × Except StorageError α) :
    (answered f (s.fenced w (some token) body)).1 = s := by
  show (s.fenced w (some token) body).1 = s
  rcases fenced_cases s w (some token) body with ⟨e, -, hrej⟩ | ⟨hok, -⟩
  · rw [hrej]
  · exact absurd ⟨hne, hok⟩ h

private theorem checkFences_rejected
    {ids : List String} (hmem : w ∈ ids) : ∃ e, s.checkFences (some token) ids = .error e := by
  induction ids with
  | nil => exact absurd hmem List.not_mem_nil
  | cons id rest ih =>
    unfold checkFences
    cases hfence : s.leases.checkFence s.now id (some token) with
    | error e => exact ⟨e, rfl⟩
    | ok u =>
      rcases List.mem_cons.mp hmem with rfl | hrest
      · exact absurd ⟨hne, hfence⟩ h
      · exact ih hrest

private theorem releaseLock_rejected
    (hexpired : ¬ ReleasesExpired s (.releaseLock w (some token))) :
    s.releaseLock w (some token) = s := by
  unfold releaseLock
  rcases release_cases s.leases w (some token) with hsame | ⟨hmine, -⟩
  · rw [hsame]
  · obtain ⟨lease, hget, htok⟩ := hmine (by simp [truthy, hne])
    have htok' : lease.token = token := (Option.some.inj htok).symm
    by_cases hlive : s.now < lease.expiresAt
    · exact absurd (accepts_iff.mpr ⟨hne, lease, hget, htok', hlive⟩) h
    · exact absurd ⟨w, token, lease, rfl, hne, hget, htok', by omega⟩ hexpired

private theorem heartbeat_rejected (ms : Int) :
    (s.heartbeat w ms (some token)).1 = s := by
  unfold heartbeat extend
  cases hfence : s.leases.checkFence s.now w (some token) with
  | error e => rfl
  | ok u => exact absurd ⟨hne, hfence⟩ h

end

end

theorem rejected_write_noop {o : StorageOp} (ho : CarriesToken w token o) (hne : token ≠ "")
    (h : ¬ Accepts s w token) (hexpired : ¬ ReleasesExpired s o) : storage.next s o = s := by
  cases ho with
  | @createWorkflow p hw =>
    show (s.createWorkflow p (some token)).1 = s
    unfold createWorkflow
    have htruthy : truthy (some token) = true := by simp [truthy, hne]
    simp only [htruthy, ↓reduceIte, hw]
    exact fenced_rejected hne h .created _
  | @batchSaveStepResults records hw =>
    obtain ⟨r, hmem, hr⟩ := hw
    obtain ⟨e, he⟩ := checkFences_rejected hne h (List.mem_map.mpr ⟨r, hmem, hr⟩)
    show (s.batchSaveStepResults records (some token)).1 = s
    unfold batchSaveStepResults
    rw [he]
  | releaseLock => exact releaseLock_rejected hne h hexpired
  | heartbeat => exact heartbeat_rejected hne h _
  | saveStepResult hw | saveStepFailure hw | appendStreamChunk hw | saveStepAttempt hw
  | checkpointStep hw | appendEntry hw | appendPendingEntry hw | completePendingEntry hw =>
    subst hw
    exact fenced_rejected hne h _ _
  | saveTask | completeWorkflow | failWorkflow | tripwireWorkflow | cancelWorkflow
  | suspendWorkflow | setWorkflowMetadata | startFreshRun | beginCompensation
  | saveStepCompensation | discardJournalEntries => exact fenced_rejected hne h _ _

end

/-- The call neither revives nor releases an expired lease. -/
def LeavesExpired (s : InMemoryWorkflowStorage) (o : StorageOp) : Prop :=
  ¬ RevivesExpired s o ∧ ¬ ReleasesExpired s o

/-- **Fencing safety.** Over every run of the storage in which no heartbeat without a
    token reaches an expired lease and no release carries the token of an expired lease:
    tokens handed out grow; at most one token a workflow is accepted; a token that stopped
    being accepted is not accepted again; and a write under a token that is not accepted
    leaves the whole storage unchanged. -/
theorem fencing_safety (config : StorageConfig) (ops : List StorageOp)
    (h : storage.Always LeavesExpired (.new config) ops) :
    (∀ before o mid o' after token token', ops = before ++ o :: (mid ++ o' :: after) →
      Acquires (storage.run (.new config) before) o token →
      Acquires (storage.run (.new config) (before ++ o :: mid)) o' token' →
      token ≠ token' ∧ ∃ n n' : Nat, token = toString n ∧ token' = toString n' ∧ n < n') ∧
    (∀ done, done <+: ops → ∀ w token token',
      Accepts (storage.run (.new config) done) w token →
      Accepts (storage.run (.new config) done) w token' → token = token') ∧
    (∀ first mid last rest, ops = first ++ (mid ++ (last ++ rest)) → ∀ w token,
      Accepts (storage.run (.new config) first) w token →
      ¬ Accepts (storage.run (.new config) (first ++ mid)) w token →
      ¬ Accepts (storage.run (.new config) (first ++ mid ++ last)) w token) ∧
    storage.Always (fun s o => ∀ w token, CarriesToken w token o → token ≠ "" →
      ¬ Accepts s w token → storage.next s o = s) (.new config) ops := by
  refine ⟨?_, ?_, ?_, ?_⟩
  · rintro before o mid o' after token token' - hfirst hsecond
    obtain ⟨htoken, hlt⟩ := acquires_counter hfirst
    obtain ⟨htoken', -⟩ := acquires_counter hsecond
    have hmono := run_counter (storage.next (storage.run (.new config) before) o) mid
    rw [run_append, run_cons] at htoken'
    refine ⟨fun he => ?_, _, _, htoken, htoken', by omega⟩
    have := Nat.toString_inj (htoken.symm.trans (he.trans htoken'))
    omega
  · intro done _ w token token' haccepts haccepts'
    obtain ⟨-, lease, hget, htok, -⟩ := accepts_iff.mp haccepts
    obtain ⟨-, lease', hget', htok', -⟩ := accepts_iff.mp haccepts'
    rw [hget] at hget'
    cases hget'
    exact htok.symm.trans htok'
  · rintro first mid last rest rfl w token haccepts hdead
    rw [always_append, always_append, always_append] at h
    obtain ⟨-, -, hlast, -⟩ := h
    -- The token was handed out before it was accepted, so it is spent by now.
    obtain ⟨-, lease, hget, htok, -⟩ := accepts_iff.mp haccepts
    obtain ⟨n, hn, hlt⟩ := run_induction (P := IssuedTokens)
      (fun _ o hs => step_issuedTokens hs o) first (issuedTokens_new config) w lease hget
    have hmono := run_counter (storage.run (.new config) first) mid
    rw [run_append] at hdead ⊢
    rw [run_append]
    have hspent : Spent w token (storage.run (storage.run (.new config) first) mid) :=
      ⟨⟨n, htok ▸ hn, by omega⟩, hdead⟩
    exact (run_induction_always (fun _ _ ho hs => step_spent hs ho.1) hlast hspent).2
  · refine always_mono (fun s o ho w token hcarries hne hrej => ?_) h
    exact rejected_write_noop hcarries hne hrej ho.2

private theorem leavesExpired_of (hbeat : ∀ w ms g, o = .heartbeat w ms g → truthy g = true)
    (hrelease : ∀ w g, o ≠ .releaseLock w g) : LeavesExpired s o := by
  constructor
  · rintro ⟨w, ms, g, lease, ho, hfree, -⟩
    rw [hbeat w ms g ho] at hfree
    exact nomatch hfree
  · rintro ⟨w, token, lease, ho, -⟩
    exact hrelease w (some token) ho

/-- A lease taken over after its expiry: the first token is never accepted again. -/
theorem fencing_safety_takeover :
    let ops : List StorageOp := [.tryLock "w" 10 none, .advance 10, .tryLock "w" 10 none,
      .heartbeat "w" 10 (some "2")]
    storage.Always LeavesExpired (.new { instanceId := "i" }) ops ∧
      ¬ Accepts (storage.run (.new { instanceId := "i" }) ops) "w" "1" := by
  have hops : storage.Always LeavesExpired (.new { instanceId := "i" })
      [.tryLock "w" 10 none, .advance 10, .tryLock "w" 10 none,
        .heartbeat "w" 10 (some "2")] := by
    refine ⟨leavesExpired_of nofun nofun, leavesExpired_of nofun nofun,
      leavesExpired_of nofun nofun, leavesExpired_of ?_ nofun, trivial⟩
    intro w ms g ho
    cases ho
    rfl
  refine ⟨hops, ?_⟩
  refine (fencing_safety { instanceId := "i" } _ hops).2.2.1 [.tryLock "w" 10 none] [.advance 10]
    [.tryLock "w" 10 none, .heartbeat "w" 10 (some "2")] [] rfl "w" "1" ?_ ?_
  · unfold Accepts FenceAccepts
    decide
  · unfold Accepts FenceAccepts
    decide

/-- A heartbeat without a token brings an expired token back, and a release under an
    expired token changes the lock table. -/
theorem expired_lease_counterexample :
    let s := storage.run (.new { instanceId := "i" }) [.tryLock "w" 10 none]
    let expired := storage.next s (.advance 10)
    (Accepts s "w" "1" ∧ ¬ Accepts expired "w" "1" ∧
      Accepts (storage.next expired (.heartbeat "w" 10 none)) "w" "1") ∧
    (CarriesToken "w" "1" (.releaseLock "w" (some "1")) ∧
      storage.next expired (.releaseLock "w" (some "1")) ≠ expired) := by
  refine ⟨?_, .releaseLock, by decide⟩
  unfold Accepts FenceAccepts
  decide

end Promin.Durable

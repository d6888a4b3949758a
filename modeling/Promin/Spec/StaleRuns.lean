import Promin.Spec.StaleSweep

/-!
# Stale-run recovery

Stale termination over a storage without a bulk method, compared with the bulk
update of SQLite on the same rows.
-/

namespace Promin.Durable

open SqliteWorkflowStorage Option JsMap StaleTerminationAction InMemoryWorkflowStorage

theorem get_cancelStaleWorkflows (now : Int) (locks : JsMap String Lease)
    (p : CancelStaleWorkflowsParams) (rows : JsMap String MutableWorkflow) (id : String) :
    (cancelStaleWorkflows now locks p rows).1.get id = (rows.get id).map fun wf =>
      if staleRow now locks p id wf then
        staleCancelledRow now (p.error.getD "Stale run cancelled on restart") wf
      else wf := by
  simp only [cancelStaleWorkflows]
  split
  · -- Nothing is stale, so there is nothing to update.
    rename_i hcount
    cases hget : rows.get id with
    | none => rfl
    | some wf =>
      have hnone := List.filter_eq_nil_iff.mp (List.eq_nil_of_length_eq_zero hcount) (id, wf)
        ((mem_entries_iff _ _ _).mpr hget)
      simp only [Bool.not_eq_true] at hnone
      simp [hnone]
  · rw [get_mapValues]

def StaleTerminationAction.bulkError : StaleTerminationAction → String
  | .cancel => "Stale run cancelled on restart"
  | .fail error => error

def StaleTerminationOpts.bulkParams (opts : StaleTerminationOpts) : CancelStaleWorkflowsParams where
  olderThanMs := opts.staleThresholdMs
  error := some opts.staleAction.bulkError
  statuses := some opts.staleStatuses

theorem staleRow_iff (s : InMemoryWorkflowStorage) (opts : StaleTerminationOpts) (id : String)
    (wf : MutableWorkflow) :
    staleRow s.now s.leases.leases opts.bulkParams id wf = true ↔
      Stale s (s.now - opts.staleThresholdMs) opts.staleStatuses id wf := by
  have hheld : unlocked s.now s.leases.leases id = true ↔ s.leases.isHeld id s.now = false := by
    unfold unlocked InMemoryLeaseTable.isHeld InMemoryLeaseTable.live
    cases hlease : s.leases.leases.get id with
    | none => simp
    | some lease =>
      by_cases hlive : lease.expiresAt > s.now
      · simp [hlive]
      · simp [hlive]
  simp only [staleRow, StaleTerminationOpts.bulkParams, Bool.and_eq_true, hheld, Stale, and_assoc]
  constructor
  · intro h
    exact ⟨of_decide_eq_true h.1, of_decide_eq_true h.2.1, h.2.2⟩
  · intro h
    exact ⟨decide_eq_true h.1, decide_eq_true h.2.1, h.2.2⟩

/-- What stale termination promises of one storage, its clock and a strategy: it ends also
when terminates are ignored, it ends exactly the stale runs, each once, and says how many they
were, and the bulk path of SQLite leaves the same status, error and tag on every run. -/
structure StaleRunsAgree (s : InMemoryWorkflowStorage) (opts : StaleTerminationOpts)
    (fuel : Nat) : Prop where
  finishes : ∀ ignores,
    (terminateStaleRuns (inMemoryRecovery ignores) s.now opts fuel s).isSome = true
  ends : ∃ s' ended,
    terminateStaleRuns (inMemoryRecovery fun _ => false) s.now opts fuel s =
      some (s', .ok ended.length) ∧
    ended.Nodup ∧ EndsRuns opts.staleAction ended s s' ∧
    ∀ id, id ∈ ended ↔ ∃ wf, s.workflows.get id = some wf ∧
      Stale s (s.now - opts.staleThresholdMs) opts.staleStatuses id wf
  sameRows : ∀ s' n t m,
    terminateStaleRuns (inMemoryRecovery fun _ => false) s.now opts fuel s = some (s', .ok n) →
    terminateStaleRuns (sqliteRecovery s.now) s.now opts fuel ⟨s.workflows, s.leases.leases⟩ =
      some (t, .ok m) →
    ∀ id, (s'.workflows.get id).map statusSnapshot = (t.rows.get id).map statusSnapshot

section Agree

variable {s : InMemoryWorkflowStorage} {opts : StaleTerminationOpts} {fuel : Nat}

theorem terminateStaleRuns_isSome (opts : StaleTerminationOpts) (hkeyed : RowsKeyed s)
    (hfuel : 2 * s.workflows.size < fuel)
    (ignores : String → Bool) :
    (terminateStaleRuns (inMemoryRecovery ignores) s.now opts fuel s).isSome = true := by
  apply Sweep.sweepStatuses_isSome _ _ (listsAmong ignores s.workflows.keys)
  · rw [length_keys]
    exact hfuel
  · exact ⟨hkeyed, rfl⟩

theorem terminateStaleRuns_paged (opts : StaleTerminationOpts) (hkeyed : RowsKeyed s)
    (hfuel : 2 * s.workflows.size < fuel) :
    ∃ s' ended,
      terminateStaleRuns (inMemoryRecovery fun _ => false) s.now opts fuel s =
        some (s', .ok ended.length) ∧
      ended.Nodup ∧ EndsRuns opts.staleAction ended s s' ∧
      ∀ id, id ∈ ended ↔ ∃ wf, s.workflows.get id = some wf ∧ s.inScope wf = true ∧
        Stale s (s.now - opts.staleThresholdMs) opts.staleStatuses id wf := by
  have hsome := terminateStaleRuns_isSome opts hkeyed hfuel fun _ => false
  obtain ⟨r, hr⟩ := isSome_iff_exists.mp hsome
  obtain ⟨ended, hcount, hnd, hends, hmem⟩ := Sweep.sweepStatuses_swept hkeyed hr
  obtain ⟨s', x⟩ := r
  rw [Nat.zero_add] at hcount
  cases hcount
  exact ⟨s', ended, hr, hnd, hends, hmem⟩

theorem terminateStaleRuns_sqlite (opts : StaleTerminationOpts) (nowMs : Int) (fuel : Nat)
    (t : SqliteTables) :
    terminateStaleRuns (sqliteRecovery nowMs) nowMs opts fuel t =
      some ({ t with rows := (cancelStaleWorkflows nowMs t.locks opts.bulkParams t.rows).1 },
        .ok (cancelStaleWorkflows nowMs t.locks opts.bulkParams t.rows).2) := by
  obtain ⟨threshold, statuses, action⟩ := opts
  cases action <;> rfl

theorem terminateStaleRuns_bulk {t : SqliteTables} {m : Nat}
    (h : terminateStaleRuns (sqliteRecovery s.now) s.now opts fuel
      ⟨s.workflows, s.leases.leases⟩ = some (t, .ok m)) (id : String) :
    t.rows.get id = (s.workflows.get id).map fun wf =>
      if staleRow s.now s.leases.leases opts.bulkParams id wf then
        staleCancelledRow s.now opts.staleAction.bulkError wf
      else wf := by
  rw [terminateStaleRuns_sqlite] at h
  simp only [Option.some.injEq, Prod.mk.injEq] at h
  rw [← h.1]
  exact get_cancelStaleWorkflows s.now s.leases.leases opts.bulkParams s.workflows id

/-- The two paths agree exactly when every run to be ended is in the namespace the storage
lists, has no error tag, and the action is `fail`: cancelling leaves another error and a tag,
failing drops a tag that the bulk update keeps. -/
theorem staleRuns_agree_iff (hkeyed : RowsKeyed s) (hfuel : 2 * s.workflows.size < fuel) :
    StaleRunsAgree s opts fuel ↔
      ∀ id wf, s.workflows.get id = some wf →
        Stale s (s.now - opts.staleThresholdMs) opts.staleStatuses id wf →
        s.inScope wf = true ∧ (∃ error, opts.staleAction = .fail error) ∧ wf.errorTag = none := by
  obtain ⟨s', ended, hslow, hnd, hends, hmem⟩ :=
    terminateStaleRuns_paged opts hkeyed hfuel
  constructor
  · intro h id wf hget hstale
    -- The run is ended, so it is one the storage lists.
    have hid : id ∈ ended := by
      obtain ⟨s'', ended', hslow', -, hends', hmem'⟩ := h.ends
      rw [hslow] at hslow'
      simp only [Option.some.injEq, Prod.mk.injEq] at hslow'
      rw [← hslow'.1] at hends'
      by_contra hnot
      have hrow := hends.get id
      rw [hends'.get id, hget, map_some, map_some, if_neg hnot,
        if_pos ((hmem' id).mpr ⟨wf, hget, hstale⟩)] at hrow
      obtain ⟨status, -, hstatus⟩ := List.mem_map.mp hstale.1
      have hfailed := congrArg (fun row => row.map (·.status)) hrow
      simp only [map_some, endedRow, ← hstatus] at hfailed
      cases status <;> cases hfailed
    obtain ⟨row, hrow, hscope, -⟩ := (hmem id).mp hid
    rw [hget] at hrow
    cases hrow
    have hbulk := terminateStaleRuns_sqlite opts s.now fuel ⟨s.workflows, s.leases.leases⟩
    have hsame := h.sameRows s' _ _ _ hslow hbulk id
    have hrow := terminateStaleRuns_bulk hbulk id
    rw [hget, map_some, if_pos ((staleRow_iff s opts id wf).mpr hstale)] at hrow
    rw [hends.get, hrow, hget, map_some, if_pos hid] at hsame
    simp only [map_some, statusSnapshot, endedRow,
      staleCancelledRow, Option.some.injEq, WorkflowStatusSnapshot.mk.injEq, true_and] at hsame
    refine ⟨hscope, ?_, ?_⟩
    · cases haction : opts.staleAction with
      | fail error => exact ⟨error, rfl⟩
      | cancel =>
        rw [haction] at hsame
        have hne : cancelledError ≠ "Stale run cancelled on restart" := by decide
        exact absurd hsame.1 hne
    · cases haction : opts.staleAction with
      | fail error =>
        rw [haction] at hsame
        exact hsame.2.symm
      | cancel =>
        rw [haction] at hsame
        have hne : cancelledError ≠ "Stale run cancelled on restart" := by decide
        exact absurd hsame.1 hne
  · intro h
    constructor
    · exact terminateStaleRuns_isSome opts hkeyed hfuel
    · refine ⟨s', ended, hslow, hnd, hends, fun id => ?_⟩
      rw [hmem]
      refine exists_congr fun wf => and_congr_right fun hget => ?_
      exact ⟨fun hstale => hstale.2, fun hstale => ⟨(h id wf hget hstale).1, hstale⟩⟩
    · intro s'' n t m hslow' hbulk id
      rw [hslow] at hslow'
      cases hslow'
      have hrow := terminateStaleRuns_bulk hbulk id
      rw [hends.get, hrow]
      cases hget : s.workflows.get id with
      | none => rfl
      | some wf =>
        by_cases hstale : Stale s (s.now - opts.staleThresholdMs) opts.staleStatuses id wf
        · obtain ⟨hscope, ⟨error, haction⟩, htag⟩ := h id wf hget hstale
          have hid : id ∈ ended := (hmem id).mpr ⟨wf, hget, hscope, hstale⟩
          have hrow' := (staleRow_iff s opts id wf).mpr hstale
          simp [hid, hrow', statusSnapshot, StaleTerminationAction.endedRow,
            staleCancelledRow, haction, StaleTerminationAction.error,
            errorTag, bulkError, htag]
        · have hid : id ∉ ended := by
            intro hin
            obtain ⟨row, hrow, -, hstale'⟩ := (hmem id).mp hin
            rw [hget] at hrow
            cases hrow
            exact hstale hstale'
          have hrow' : staleRow s.now s.leases.leases opts.bulkParams id wf = false := by
            rw [Bool.eq_false_iff, Ne, staleRow_iff]
            exact hstale
          simp [hid, hrow']

end Agree

def forgottenRun : InMemoryWorkflowStorage :=
  { ((new { instanceId := "restarted" }).createRun
      { workflowId := "w1", workflowName := "order", input := .null }).1 with now := 10000 }

theorem forgottenRun_rowsKeyed : RowsKeyed forgottenRun := by
  have hrow : forgottenRun.workflows.values.all fun wf => wf.workflowId == "w1" := by decide
  have hkeys : forgottenRun.workflows.keys = ["w1"] := by decide
  intro id wf hget
  have hid : id ∈ forgottenRun.workflows.keys := by
    rw [mem_keys_iff, hget]
    rfl
  rw [hkeys, List.mem_singleton] at hid
  have hwf := List.all_eq_true.mp hrow wf ((mem_values_iff _ _).mpr ⟨id, hget⟩)
  rw [hid]
  exact eq_of_beq hwf

/-- Failing the forgotten run leaves the same row either way. -/
theorem staleRuns_agree_fail :
    StaleRunsAgree forgottenRun (failStale 1000 none none) 3 := by
  refine (staleRuns_agree_iff forgottenRun_rowsKeyed (by decide)).mpr ?_
  intro id wf hget _
  have htag : forgottenRun.workflows.values.all fun wf => wf.errorTag == none := by decide
  have hwf := List.all_eq_true.mp htag wf ((mem_values_iff _ _).mpr ⟨id, hget⟩)
  exact ⟨rfl, ⟨_, rfl⟩, eq_of_beq hwf⟩

/-- Cancelling it does not: one path leaves `Cancelled` and a tag, the other
`Stale run cancelled on restart` and none. -/
theorem staleRuns_counterexample :
    ¬ StaleRunsAgree forgottenRun (cancelStale 1000 none) 3 := by
  intro h
  obtain ⟨s', ended, hslow, -⟩ := h.ends
  have hbulk := terminateStaleRuns_sqlite (cancelStale 1000 none) forgottenRun.now 3
    ⟨forgottenRun.workflows, forgottenRun.leases.leases⟩
  have hsame := h.sameRows s' _ _ _ hslow hbulk "w1"
  have hpaged : (terminateStaleRuns (inMemoryRecovery fun _ => false) forgottenRun.now
      (cancelStale 1000 none) 3 forgottenRun).map
        (fun r => (r.1.workflows.get "w1").map statusSnapshot) =
      some (some ⟨.failed, some "Cancelled", some "WorkflowCancelledError"⟩) := by decide +kernel
  rw [hslow, map_some, Option.some.injEq] at hpaged
  rw [hpaged] at hsame
  revert hsame
  decide +kernel

end Promin.Durable
